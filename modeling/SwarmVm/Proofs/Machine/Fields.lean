import SwarmVm.Proofs.Heap.Captures
import SwarmVm.Proofs.Heap.Maps
import SwarmVm.Proofs.Machine.Instructions

/-!
# Tables with named fields

Host code hands records to the script as tables whose keys are strings, and reads them back. To a
script such a table is a function from names to values, in which a name that is not there has the
value nil: this is `Heap.fieldNamed`. Storing under a name changes the function at that name, also
when nil is stored and the entry disappears, and what host code reads under a name is an object with
the value of the function.

A table that is being filled is new, so nothing else is altered by it (`Machine.Drafts`), and each
of these steps fails for want of room only.

## Main definitions

* `Heap.fieldNamed` — a table as a function from names to values
* `Heap.Fielded` — a table whose fields can be read
* `Machine.Expands`, `Machine.Drafts` — a heap that grows, and a table that is being filled

## Main results

* `Machine.Drafts.setField` — filling
* `Machine.ends_field` — reading
-/

namespace SwarmVm

namespace Heap

variable {h h' : Heap} {t k v n : Ref} {name : NameId}

/-- The value that a table has under a name, nil when there is nothing. -/
def fieldNamed (h : Heap) (t : Ref) (name : NameId) : Value :=
  ((h.tableEntries t).find? fun e => h.value e.1 = .string name).elim .nil fun e => h.value e.2

/-- A map that is no array, and whose values are there and are not the map itself. -/
structure Fielded (h : Heap) (t : Ref) : Prop extends h.Mapped t where
  /-- It is no array. -/
  isArray : h.isArray t = false
  /-- The values are other objects that are there. -/
  contents : ∀ e ∈ h.tableEntries t, h.isValid e.2 = true ∧ e.2 ≠ t

theorem fieldNamed_of_mem (m : h.Mapped t) {e : Ref × Ref} (he : e ∈ h.tableEntries t)
    (hk : h.value e.1 = .string name) : h.fieldNamed t name = h.value e.2 := by
  rw [fieldNamed]
  cases hf : (h.tableEntries t).find? fun e => h.value e.1 = .string name with
  | none => exact absurd (decide_eq_true hk) (List.find?_eq_none.1 hf e he)
  | some e' =>
    have hk' : h.value e'.1 = .string name := by simpa using List.find?_some hf
    -- keys with the same name are equal, so there is one entry only
    have : Std.Symm fun e e' : Ref × Ref => ¬ h.Alike e.1 e'.1 := ⟨fun e e' hn ha => hn ha.symm⟩
    by_contra hne
    exact m.distinct.forall (List.mem_of_find?_eq_some hf) he (fun he => hne (by rw [he]; rfl))
      ((alike_iff_of_string hk).2 hk')

theorem fieldNamed_of_absent (hk : ∀ e ∈ h.tableEntries t, h.value e.1 ≠ .string name) :
    h.fieldNamed t name = .nil := by
  rw [fieldNamed, List.find?_eq_none.2 fun e he hs => hk e he (of_decide_eq_true hs)]
  rfl

/-- After an edit, a key that is a name has been that name before. -/
theorem Mapped.key_edited (m : h.Mapped t) (m' : h'.Mapped t) (sp : Spares {t} h h')
    (hk : h.isValid k = true) (ed : Edit h k v (h.tableEntries t) (h'.tableEntries t))
    {e : Ref × Ref} (he : e ∈ h'.tableEntries t) :
    h'.value e.1 = .string name ↔ h.value e.1 = .string name := by
  have hvalid : h.isValid e.1 = true := by
    rcases ed.key_of_mem he with he | ⟨e', he', hkey⟩
    · rw [he]
      exact hk
    · rw [← hkey]
      exact (m.keys e' he').1
  have hrank := sp.rank? m.isTable m'.isTable hvalid
  exact ⟨fun hs => Value.eq_string_of_rank? (by rw [← hrank, hs]),
    fun hs => Value.eq_string_of_rank? (by rw [hrank, hs])⟩

namespace Fielded

/-- What is found under a string has the value of the field, if nil stands for what is not there. -/
theorem get (ft : h.Fielded t) (hk : h.value k = .string name) (hv : h.isValid n = true)
    (hn : h.value n = .nil) : h.isValid ((h.tableGet? t k).getD n) = true
      ∧ h.value ((h.tableGet? t k).getD n) = h.fieldNamed t name := by
  cases hg : h.tableGet? t k with
  | none =>
    have absent := ft.tableGet?_eq_none_iff.1 hg
    rw [fieldNamed_of_absent fun e he hs => absent e he ((alike_iff_of_string hk).2 hs)]
    exact ⟨hv, hn⟩
  | some r =>
    obtain ⟨e, he, hek, rfl⟩ := ft.tableGet?_eq_some_iff.1 hg
    rw [fieldNamed_of_mem ft.toMapped he ((alike_iff_of_string hk).1 hek)]
    exact ⟨(ft.contents e he).1, rfl⟩

/-- The fields are the same when neither the table nor what is in it is altered. -/
theorem unaltered (ft : h.Fielded t) (u : Unaltered h h' t)
    (hE : ∀ e ∈ h.tableEntries t, Unaltered h h' e.1 ∧ Unaltered h h' e.2) :
    h'.Fielded t ∧ h'.fieldNamed t = h.fieldNamed t := by
  have m' := ft.toMapped.unaltered u fun e he => ⟨(hE e he).1.isValid, (hE e he).1.value⟩
  have hE' := u.tableEntries
  refine ⟨⟨m', (u.isArray ft.isTable).trans ft.isArray, fun e he => ?_⟩, funext fun name => ?_⟩
  · rw [hE'] at he
    exact ⟨(hE e he).2.isValid, (ft.contents e he).2⟩
  · by_cases hf : ∃ e ∈ h.tableEntries t, h.value e.1 = .string name
    · obtain ⟨e, he, hk⟩ := hf
      rw [fieldNamed_of_mem ft.toMapped he hk,
        fieldNamed_of_mem m' (hE' ▸ he) ((hE e he).1.value.trans hk)]
      exact (hE e he).2.value
    · have absent : ∀ e ∈ h.tableEntries t, h.value e.1 ≠ .string name :=
        fun e he hk => hf ⟨e, he, hk⟩
      rw [fieldNamed_of_absent absent, fieldNamed_of_absent fun e he => ?_]
      rw [hE'] at he
      rw [(hE e he).1.value]
      exact absent e he

theorem grows (ft : h.Fielded t) (g : Grows h h') :
    h'.Fielded t ∧ h'.fieldNamed t = h.fieldNamed t :=
  ft.unaltered (g.spares.unaltered ft.isTable.1) fun e he =>
    ⟨g.spares.unaltered (ft.keys e he).1, g.spares.unaltered (ft.contents e he).1⟩

/-- An edit under a name changes the function at that name. -/
theorem edited (ft : h.Fielded t) (m' : h'.Mapped t) (sp : Spares {t} h h')
    (isArray : h'.isArray t = h.isArray t) (hk : h.value k = .string name)
    (hv : h.isValid v = true) (ne : v ≠ t)
    (ed : Edit h k v (h.tableEntries t) (h'.tableEntries t)) :
    h'.Fielded t ∧ h'.fieldNamed t = Function.update (h.fieldNamed t) name (h.value v) := by
  have same : ∀ {r}, h.isValid r = true → r ≠ t → Unaltered h h' r :=
    fun hr ne => sp.unaltered_of_ne ne hr
  have hname : ∀ e ∈ h'.tableEntries t, ∀ name',
      h'.value e.1 = .string name' ↔ h.value e.1 = .string name' :=
    fun e he _ => ft.key_edited m' sp (kind_of_value hk (by simp)).1 ed he
  have hstored : ∀ e ∈ h'.tableEntries t, h.Alike e.1 k → h.kind v ≠ .nil ∧ v = e.2 :=
    fun e he hek => (ed.stored_of_alike ((alike_equivalence h).refl k)).1 ⟨e, he, hek, rfl⟩
  refine ⟨⟨m', isArray.trans ft.isArray, fun e he => ?_⟩, funext fun name' => ?_⟩
  · by_cases hek : h.Alike e.1 k
    · rw [← (hstored e he hek).2]
      exact ⟨(same hv ne).isValid, ne⟩
    · obtain ⟨hvalid, hne⟩ := ft.contents e ((ed.mem_iff_of_not_alike hek).1 he)
      exact ⟨(same hvalid hne).isValid, hne⟩
  by_cases hn : name' = name
  · rw [hn, Function.update_self]
    by_cases hnil : h.kind v = .nil
    · have hvalue : h.value v = .nil := by
        rw [kind_eq_kind_value hv] at hnil
        revert hnil
        cases h.value v <;> simp [Value.kind]
      rw [hvalue]
      exact fieldNamed_of_absent fun e he hs =>
        (hstored e he ((alike_iff_of_string hk).2 ((hname e he _).1 hs))).1 hnil
    · obtain ⟨e, he, hek, rfl⟩ :=
        (ed.stored_of_alike ((alike_equivalence h).refl k)).2 ⟨hnil, rfl⟩
      rw [fieldNamed_of_mem m' he ((hname e he _).2 ((alike_iff_of_string hk).1 hek))]
      exact (same hv ne).value
  · rw [Function.update_of_ne hn]
    have other : ∀ {e : Ref × Ref}, h.value e.1 = .string name' → ¬ h.Alike e.1 k := by
      intro e hs hek
      rw [(alike_iff_of_string hk).1 hek] at hs
      exact hn (Value.string.inj hs).symm
    by_cases hf : ∃ e ∈ h.tableEntries t, h.value e.1 = .string name'
    · obtain ⟨e, he, hs⟩ := hf
      have he' := (ed.mem_iff_of_not_alike (other hs)).2 he
      obtain ⟨hvalid, hne⟩ := ft.contents e he
      rw [fieldNamed_of_mem ft.toMapped he hs, fieldNamed_of_mem m' he' ((hname e he' _).2 hs)]
      exact (same hvalid hne).value
    · rw [fieldNamed_of_absent fun e he hs => hf ⟨e, he, hs⟩,
        fieldNamed_of_absent fun e he hs => ?_]
      have hs := (hname e he _).1 hs
      exact hf ⟨e, (ed.mem_iff_of_not_alike (other hs)).1 he, hs⟩

end Fielded

theorem value_tableNew (wf : h.WellFormed) : Ends tableNew h
    (fun t h' => ∃ s, h'.value t = .table ⟨s, false, false⟩) fun _ _ => True := by
  refine ends_bind ((newObject_allocSlot (A := Set.univ) wf).imp (fun _ _ => id)
    fun _ _ _ => trivial) fun r h₁ n => ends_get_bind ?_
  have wf₁ := n.evolves.wellFormed
  cases ha : allocSegment h₁ with
  | error e h₂ =>
    exact ends_bind (ends_set (Q := fun _ _ => True) trivial) fun _ _ _ => ends_throw trivial
  | ok s h₂ =>
    have ns := (newSegment_allocSegment wf₁.layout).of_ok ha
    have ev₂ : Evolves ∅ Set.univ h₁ h₂ := ns.evolves wf₁
    have hv₂ := ev₂.isValid r (Set.notMem_empty r) n.isValid
    exact ends_bind (ends_set (Q := fun _ h' => h'.value r = .table ⟨s, false, false⟩)
      (value_setValue ns.layout hv₂ _)) fun _ _ hv => ends_pure ⟨s, hv⟩

/-- A new table has no fields. -/
theorem fielded_tableNew (wf : h.WellFormed) : Ends tableNew h
    (fun t h' => h'.Fielded t ∧ (h'.fieldNamed t = fun _ => .nil) ∧ h.isValid t = false
      ∧ Grows h h') fun _ _ => True := by
  refine ((((newObject_allocTable (A := Set.univ) wf).and (arraySlots_allocTable wf)).and
    (spares_allocTable wf)).and (value_tableNew wf)).imp (fun t h' ht => ?_) fun _ _ _ => trivial
  obtain ⟨⟨⟨⟨n, isTable⟩, hs⟩, sp⟩, s, hv⟩ := ht
  have hE := (tableEntries_of_empty hs).2
  refine ⟨⟨mapped_of_empty isTable hs, ?_, ?_⟩, funext fun name => ?_, n.free,
    n.evolves.wellFormed, n.evolves.tidy, sp⟩
  · have hkind := value_of_kind_table isTable.1 isTable.2
    rw [hv, Value.table.injEq, TableValue.mk.injEq] at hkind
    rw [isArray, ← hkind.2.1, Bool.and_false]
  · simp [hE]
  · exact fieldNamed_of_absent (by simp [hE])

/-- Storing under a name changes the function at that name, or fails and changes nothing. -/
theorem fielded_tableSet (wf : h.WellFormed) (tidy : h.Tidy) (ft : h.Fielded t)
    (hk : h.value k = .string name) (hv : h.isValid v = true) (ne : v ≠ t) :
    Ends (tableSet t k v) h (fun _ h' => h'.Fielded t
      ∧ h'.fieldNamed t = Function.update (h.fieldNamed t) name (h.value v))
      fun _ h' => h' = h := by
  have hkind : h.kind k ≠ .nil := by
    rw [(kind_of_value hk (by simp)).2]
    simp [Value.kind]
  have ht : h.kind t = .table → h.isValid t = true := fun _ => ft.isTable.1
  refine (((edit_tableSet wf tidy ft.toMapped hkind).and (spares_tableSet wf ht k v)).and
    (resembles_tableSet wf ht k v)).imp (fun _ h' hs => ?_) fun _ _ he => he.1.1
  obtain ⟨⟨⟨m', ed⟩, sp⟩, al⟩ := hs
  exact ft.edited m' sp (al.isArray t) hk hv ne ed

end Heap

namespace Machine

open Heap (Grows Spares)

variable {F α : Type} {m m₁ m' m'' : Machine F} {t r : Ref} {v : Value} {name : NameId}

/-! ### Heaps that grow -/

/-- `m'` is `m` with a heap that has grown. -/
structure Expands (m m' : Machine F) : Prop where
  /-- Nothing else is different, apart from the log. -/
  same : m' = { m with heap := m'.heap, strayed := m'.strayed, log := m'.log }
  /-- The heap has grown. -/
  grows : Grows m.heap m'.heap

namespace Expands

theorem refl (wf : m.heap.WellFormed) : Expands m m := ⟨rfl, .refl wf⟩

theorem trans (x : Expands m m') (x' : Expands m' m'') : Expands m m'' := by
  refine ⟨?_, x.grows.trans x'.grows⟩
  rw [x'.same, x.same]

theorem unaltered (x : Expands m m') (hr : m.heap.isValid r = true) :
    m.heap.Unaltered m'.heap r := x.grows.spares.unaltered hr

end Expands

/-- The shared nil is there. -/
def HasNil (m : Machine F) : Prop := m.heap.isValid m.nil = true ∧ m.value m.nil = .nil

instance (m : Machine F) : Decidable m.HasNil :=
  inferInstanceAs (Decidable (m.heap.isValid m.nil = true ∧ m.value m.nil = .nil))

theorem HasNil.expands (hn : m.HasNil) (x : Expands m m') : m'.HasNil := by
  have u := x.unaltered hn.1
  have hnil : m'.nil = m.nil := by rw [x.same]
  rw [HasNil, hnil]
  exact ⟨u.isValid, u.value.trans hn.2⟩

/-- What is done on the heap fails for want of room only. -/
theorem ends_onHeap_of {x : HeapM α} {Q : α → Heap → Prop} {E : OutOfMemory → Heap → Prop}
    (hx : Ends x m.heap Q E) :
    Ends (onHeap x) m (fun a m' => ∃ h, Q a h ∧ m' = { m with heap := h })
      fun e _ => e = .fault .outOfMemory := by
  refine ⟨(ends_onHeap hx).of_ok, fun hs => ?_⟩
  rw [onHeap] at hs
  simp only [detachHeap] at hs
  cases ha : x m.heap with
  | ok a h =>
    rw [ha] at hs
    cases hs
  | error e h =>
    rw [ha] at hs
    cases hs
    rfl

theorem ends_alloc (wf : m.heap.WellFormed) (hn : v ≠ .nil) (ht : ∀ t, v ≠ .table t) :
    Ends (alloc v) m (fun r m' => Expands m m' ∧ m'.value r = v)
      fun e _ => e = .fault .outOfMemory := by
  have scalar : Ends (onHeap (Heap.allocValue v)) m (fun r m' => Expands m m' ∧ m'.value r = v)
      fun e _ => e = .fault .outOfMemory := by
    refine (ends_onHeap_of (Heap.grows_allocValue wf ht)).imp ?_ fun _ _ => id
    rintro r m' ⟨h, ⟨g, -, hv⟩, rfl⟩
    exact ⟨⟨rfl, g⟩, hv⟩
  cases v with
  | nil => exact absurd rfl hn
  | table t => exact absurd rfl (ht t)
  | _ => exact scalar

/-! ### Filling a table -/

/-- `m'` is `m` with a heap that has grown by the table `t` at least. -/
structure Drafts (m : Machine F) (t : Ref) (m' : Machine F) : Prop extends Expands m m' where
  /-- The table is new. -/
  free : m.heap.isValid t = false
  /-- It is a table. -/
  isTable : m'.heap.IsTable t

theorem ends_tableNew (wf : m.heap.WellFormed) : Ends (onHeap Heap.tableNew) m
    (fun t m' => Drafts m t m' ∧ m'.heap.Fielded t ∧ m'.heap.fieldNamed t = fun _ => .nil)
      fun e _ => e = .fault .outOfMemory := by
  refine (ends_onHeap_of (Heap.fielded_tableNew wf)).imp ?_ fun _ _ => id
  rintro t m' ⟨h, ⟨ft, hf, free, g⟩, rfl⟩
  exact ⟨⟨⟨rfl, g⟩, free, ft.isTable⟩, ft, hf⟩

namespace Drafts

theorem expands (d : Drafts m t m₁) (x : Expands m₁ m') : Drafts m t m' :=
  ⟨d.toExpands.trans x, d.free, (x.unaltered d.isTable.1).isTable d.isTable⟩

/-- The new table is altered, and nothing else. -/
theorem alter {A : Set Ref} {h : Heap} (d : Drafts m t m₁) (ev : Heap.Evolves ∅ A m₁.heap h)
    (sp : Spares {t} m₁.heap h) : Drafts m t { m₁ with heap := h } := by
  refine ⟨⟨?_, ev.wellFormed, fun tidy => ev.tidy (d.grows.tidy tidy),
    d.grows.spares.alter sp d.free⟩, d.free, ev.isTable (Set.notMem_empty t) d.isTable⟩
  rw [d.same]

/-- An object with a value that is no table is another object. -/
theorem ne_of_value (d : Drafts m t m₁) (hr : m₁.value r = v) (ht : ∀ t, v ≠ .table t) : r ≠ t := by
  rintro rfl
  obtain ⟨tv, htv, -⟩ := d.isTable.value
  exact ht tv (hr.symm.trans htv)

/-- A field is stored. -/
theorem setField (tidy : m.heap.Tidy) (d : Drafts m t m₁) (name : NameId) (r : Ref) :
    Ends (setField t name r) m₁ (fun _ m' => Drafts m t m'
      ∧ (m₁.heap.Fielded t → m₁.heap.isValid r = true → r ≠ t → m'.heap.Fielded t
        ∧ m'.heap.fieldNamed t = Function.update (m₁.heap.fieldNamed t) name (m₁.value r)))
      fun e _ => e = .fault .outOfMemory := by
  refine ends_bind (ends_alloc d.grows.wellFormed (by simp) (by simp)) fun k m₂ h₂ => ?_
  obtain ⟨x, hk⟩ := h₂
  refine ends_bind (ends_modify (Q := fun _ m' => Expands m₂ m' ∧ m'.heap = m₂.heap)
    ⟨⟨rfl, .refl x.grows.wellFormed⟩, rfl⟩) fun _ m₃ h₃ => ?_
  obtain ⟨x₃, hheap⟩ := h₃
  have d₃ := d.expands (x.trans x₃)
  have wf := d₃.grows.wellFormed
  have ht : m₃.heap.kind t = .table → m₃.heap.isValid t = true := fun _ => d₃.isTable.1
  have ev := Heap.evolves_tableSet wf ht (Set.mem_univ (Heap.slotRef k))
    (Set.mem_univ (Heap.slotRef r))
  have stored : Ends (Heap.tableSet t k r) m₃.heap (fun _ h' => m₃.heap.Fielded t →
      m₃.heap.isValid r = true → r ≠ t → h'.Fielded t
        ∧ h'.fieldNamed t = Function.update (m₃.heap.fieldNamed t) name (m₃.value r))
      fun _ _ => True :=
    ⟨fun hs ft hr ne => (Heap.fielded_tableSet wf (d₃.grows.tidy tidy) ft
      ((congrArg (·.value k) hheap).trans hk) hr ne).of_ok hs, fun _ => trivial⟩
  refine (ends_onHeap_of ((ev.and (Heap.spares_tableSet wf ht k r)).and stored)).imp ?_
    fun _ _ => id
  rintro _ m' ⟨h', ⟨⟨ev, sp⟩, hstored⟩, rfl⟩
  refine ⟨d₃.alter ev sp, fun ft hr ne => ?_⟩
  obtain ⟨ft₃, hf⟩ := ft.grows (x.trans x₃).grows
  have u := (x.trans x₃).unaltered hr
  rw [← hf, ← show m₃.value r = m₁.value r from u.value]
  exact hstored ft₃ u.isValid ne

end Drafts

/-! ### Reading a table -/

/-- What is read under a name has the value of the field. -/
theorem ends_field (wf : m.heap.WellFormed) (hn : m.HasNil) (ft : m.heap.Fielded t)
    (name : NameId) : Ends (field t name) m (fun r m' => Expands m m'
      ∧ m'.heap.isValid r = true ∧ m'.value r = m.heap.fieldNamed t name)
      fun e _ => e = .fault .outOfMemory := by
  refine ends_bind (ends_alloc wf (by simp) (by simp)) fun k m₁ h₁ => ?_
  obtain ⟨x, hk⟩ := h₁
  have hn₁ := hn.expands x
  obtain ⟨ft₁, hf⟩ := ft.grows x.grows
  rw [← hf]
  refine ends_bind (ends_modify (Q := fun _ m' => Expands m₁ m' ∧ m'.heap = m₁.heap
    ∧ m'.nil = m₁.nil) ⟨⟨rfl, .refl x.grows.wellFormed⟩, rfl, rfl⟩) fun _ m₂ h₂ => ends_get_bind ?_
  obtain ⟨x₂, hheap, hnil⟩ := h₂
  refine ends_pure ⟨x.trans x₂, ?_⟩
  rw [value, hheap, hnil]
  exact ft₁.get hk hn₁.1 hn₁.2

end Machine

end SwarmVm
