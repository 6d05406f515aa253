import SwarmVm.Proofs.Heap.Captures

/-!
# Flags, and what is no table

The operations on tables and arrays may be called with any object index. They follow the chain of
the object, and what is no table has none, so that there is nothing to find and nothing to write.
`Heap.arrayClear` goes one step further: when the chain is empty it also drops flag `b` of the
header, without asking what the object is. On an array the flag says that it is a copy; on a closure
it says that there is a captured record.

Which headers carry the flag is an invariant of every heap that can be made: a table or a closure
that is there. So clearing anything else than a table writes the byte that is there already, except
for a closure with a captured record, which loses it, and for an index behind the last object, where
the byte belongs to nobody, or to a segment, or lies behind the row and is not there to be written.

## Main definitions

* `Header.Meaningful`, `Heap.Flagged` — flag `b` is set on tables and closures only

## Main results

* `Heap.Built.flagged` — every heap that can be made is flagged in this way
* `Heap.ignores_other_objects` — what operations on tables and arrays do to anything else
-/

namespace SwarmVm

/-- Flag `b` is set on a table or a closure that is there, if at all. -/
def Header.Meaningful (d : Header) : Prop :=
  d.flagB = true → d.valid = true ∧ (d.kind = .table ∨ d.kind = .closure)

theorem Header.meaningful_of_flagB {d : Header} (hb : d.flagB = false) : d.Meaningful := by
  intro ht
  rw [hb] at ht
  cases ht

theorem Header.meaningful_pack (v : Value) {d : Header} (tag : d.tag = v.pack.header.tag)
    (flagB : d.flagB = v.pack.header.flagB) (valid : d.valid = true) : d.Meaningful := by
  have hk : d.kind = v.kind := by
    rw [Header.kind, Header.kind?, tag, Value.tag_pack, Kind.ofTag?_tag, Option.getD_some]
  intro hb
  rw [flagB] at hb
  refine ⟨valid, ?_⟩
  rw [hk]
  cases v with
  | table t => exact .inl rfl
  | closure c => exact .inr rfl
  | _ => cases hb

namespace Heap

variable {h h' h'' : Heap} {r a : Ref}

/-- Flag `b` is set on tables and closures only. -/
def Flagged (h : Heap) : Prop := ∀ r, (h.header r).Meaningful

theorem flagged_make (size : Nat) : (make size).Flagged := by
  intro r
  have hslots : (make size).objectSlots = 0 := Nat.zero_div _
  rw [header, hslots, if_neg (Nat.not_lt_zero _)]
  exact Header.meaningful_of_flagB rfl

/-! ### Who sets the flag -/

/-- No object gets a flag that means nothing. -/
def KeepsFlags (h h' : Heap) : Prop := ∀ r, (h.header r).Meaningful → (h'.header r).Meaningful

namespace KeepsFlags

theorem refl (h : Heap) : KeepsFlags h h := fun _ => id

theorem trans (k : KeepsFlags h h') (k' : KeepsFlags h' h'') : KeepsFlags h h'' :=
  fun r hr => k' r (k r hr)

theorem flagged (k : KeepsFlags h h') (hf : h.Flagged) : h'.Flagged := fun r => k r (hf r)

/-- One object is written. -/
theorem of_object (header : ∀ r', r' ≠ r → h'.header r' = h.header r')
    (hr : (h.header r).Meaningful → (h'.header r).Meaningful) : KeepsFlags h h' := by
  intro r'
  by_cases ne : r' = r
  · exact ne ▸ hr
  · rw [header r' ne]
    exact id

end KeepsFlags

theorem Resembles.keepsFlags (al : Resembles h h') : KeepsFlags h h' := by
  intro r
  rw [al.header]
  exact id

theorem SameObjects.keepsFlags (o : SameObjects h h') : KeepsFlags h h' := o.resembles.keepsFlags

/-- A header is written that means something when the old one did. -/
theorem keepsFlags_setHeader (layout : h.Layout) (hr : r.toNat < h.objectSlots) {d : Header}
    (tag : d.tag < 8) (hd : (h.header r).Meaningful → d.Meaningful) :
    KeepsFlags h (h.setHeader r d) := by
  refine .of_object (r := r) (fun _ => (writesIn_setHeader h r d).header_of_ne) ?_
  rw [header_setHeader layout hr tag]
  exact hd

theorem keepsFlags_invalidate (layout : h.Layout) (r : Ref) : KeepsFlags h (h.invalidate r) := by
  rw [invalidate]
  split
  · next hr =>
    exact keepsFlags_setHeader layout hr (by decide) fun _ => Header.meaningful_of_flagB rfl
  · exact .refl h

theorem keepsFlags_setPermanent (layout : h.Layout) (r : Ref) (permanent : Bool) :
    KeepsFlags h (h.setPermanent r permanent) := by
  rw [setPermanent]
  split
  · next hv =>
    exact keepsFlags_setHeader layout (lt_objectSlots_of_isValid hv) (tag_header_lt h r) id
  · exact .refl h

theorem keepsFlags_setValue (layout : h.Layout) (hv : h.isValid r = true) (v : Value) :
    KeepsFlags h (h.setValue r v) := by
  refine .of_object (r := r) (fun _ => (writesIn_setValue h r v).header_of_ne) fun _ => ?_
  rw [header_setValue layout (lt_objectSlots_of_isValid hv)]
  exact Header.meaningful_pack v rfl rfl hv

theorem keepsFlags_allocSlot (layout : h.Layout) :
    Ends allocSlot h (fun _ h' => KeepsFlags h h') fun _ h' => h' = h := by
  refine (allocSlot_takes layout).imp (fun r h' hr => ?_) fun _ _ he => he.1
  obtain ⟨-, h₀, m, rfl⟩ := hr
  refine .of_object (fun _ => m.header_initObject_of_ne) fun _ => ?_
  rw [m.header_initObject]
  exact Header.meaningful_of_flagB rfl

theorem keepsFlags_allocValue (wf : h.WellFormed) (v : Value) :
    Ends (allocValue v) h (fun _ h' => KeepsFlags h h') fun _ h' => h' = h := by
  refine ends_bind (((keepsFlags_allocSlot wf.layout).and
    (newObject_allocSlot (A := Set.univ) wf)).imp (fun _ _ => id) fun _ _ he => he.1)
    fun r h₁ hn => ?_
  obtain ⟨k, n⟩ := hn
  refine ends_bind (ends_modify (Q := fun _ h₂ => KeepsFlags h h₂) ?_) fun _ _ k₂ => ends_pure k₂
  exact k.trans (keepsFlags_setValue n.evolves.wellFormed.layout n.isValid v)

theorem keepsFlags_copy (wf : h.WellFormed) (r : Ref) :
    Ends (copy r) h (fun _ h' => KeepsFlags h h') fun _ h' => h' = h := by
  refine ends_get_bind ?_
  cases h.value r with
  | table t => exact ends_pure (.refl h)
  | _ => exact keepsFlags_allocValue wf _

theorem keepsFlags_allocTable (wf : h.WellFormed) :
    Ends alloc.allocTable h (fun _ h' => KeepsFlags h h') fun _ h' => KeepsFlags h h' := by
  refine ends_bind (((keepsFlags_allocSlot wf.layout).and
    (newObject_allocSlot (A := Set.univ) wf)).imp (fun _ _ => id) ?_)
    fun r h₁ hn => ends_get_bind ?_
  · rintro _ _ ⟨rfl, -⟩
    exact .refl _
  obtain ⟨k, n⟩ := hn
  have layout₁ := n.evolves.wellFormed.layout
  have seg := newSegment_allocSegment layout₁
  cases ha : allocSegment h₁ with
  | ok s h₂ =>
    have ns := seg.of_ok ha
    refine ends_bind (ends_set (Q := fun _ h' => KeepsFlags h h') ?_) fun _ _ k₃ => ends_pure k₃
    exact (k.trans ns.objects.keepsFlags).trans
      (keepsFlags_setValue ns.layout ((ns.objects.isValid r).trans n.isValid) _)
  | error e h₂ =>
    have he := seg.of_error ha
    subst he
    exact ends_bind (ends_set (Q := fun _ h' => KeepsFlags h h')
      (k.trans (keepsFlags_invalidate layout₁ r))) fun _ _ k₃ => ends_throw k₃

theorem keepsFlags_alloc (wf : h.WellFormed) (kind : Kind) :
    Ends (alloc kind) h (fun _ h' => KeepsFlags h h') fun _ h' => KeepsFlags h h' := by
  have scalar : ∀ v, Ends (allocValue v) h (fun _ h' => KeepsFlags h h')
      fun _ h' => KeepsFlags h h' := by
    intro v
    refine (keepsFlags_allocValue wf v).imp (fun _ _ => id) ?_
    rintro _ _ rfl
    exact .refl _
  cases kind with
  | table => exact keepsFlags_allocTable wf
  | _ => exact scalar _

theorem keepsFlags_arrayNew (wf : h.WellFormed) :
    Ends arrayNew h (fun _ h' => KeepsFlags h h') fun _ h' => KeepsFlags h h' := by
  refine ends_bind (((keepsFlags_allocTable wf).and
    (newObject_allocTable (A := Set.univ) wf)).imp (fun _ _ => id) fun _ _ he => he.1)
    fun r h₁ hn => ?_
  obtain ⟨k, n, ht⟩ := hn
  refine ends_bind (ends_modify (Q := fun _ h₂ => KeepsFlags h h₂) ?_) fun _ _ k₂ => ends_pure k₂
  exact k.trans (keepsFlags_setHeader n.evolves.wellFormed.layout (lt_objectSlots_of_isValid ht.1)
    (tag_header_lt h₁ r) id)

/-- Setting the flag of a table, or dropping that of any object. -/
theorem keepsFlags_setFlagB (layout : h.Layout) (hv : h.isValid r = true) {flag : Bool}
    (hf : flag = true → h.kind r = .table) : KeepsFlags h (h.setFlagB r flag) :=
  keepsFlags_setHeader layout (lt_objectSlots_of_isValid hv) (tag_header_lt h r)
    fun _ hb => ⟨hv, .inl (hf hb)⟩

theorem keepsFlags_arrayClear (wf : h.WellFormed) (hv : h.isValid a = true) :
    KeepsFlags h (h.arrayClear a) := by
  have ev : Evolves ∅ Set.univ h (h.arrayPopMany a (h.arraySize a)) := evolves_arrayPopMany wf hv _
  exact (sameObjects_arrayPopMany wf hv _).keepsFlags.trans (keepsFlags_setFlagB
    ev.wellFormed.layout (ev.isValid a (Set.notMem_empty a) hv) (by simp))

theorem keepsFlags_arrayClone (wf : h.WellFormed) (a : Ref) :
    Ends (arrayClone a) h (fun _ h' => KeepsFlags h h') fun _ h' => KeepsFlags h h' := by
  refine ends_get_bind (ends_bind (((keepsFlags_arrayNew wf).and
    (newObject_arrayNew (A := Set.univ) wf)).imp (fun _ _ => id) fun _ _ he => he.1)
    fun r h₁ hn => ends_get_bind ?_)
  obtain ⟨k, n, ht⟩ := hn
  have wf₁ := n.evolves.wellFormed
  have evs := evolves_arrayPushAll (A := Set.univ) wf₁ n.isValid
    fun e (_ : e ∈ h.arrayElements a) => Set.mem_univ _
  have same := sameObjects_arrayPushAll wf₁ n.isValid (h.arrayElements a)
  cases hp : arrayPushAll r (h.arrayElements a) h₁ with
  | ok u h₂ =>
    have ev₂ := evs.of_ok hp
    have ht₂ := ev₂.isTable (Set.notMem_empty r) ht
    have k₃ : KeepsFlags h (h₂.setFlagB r true) := (k.trans (same.of_ok hp).keepsFlags).trans
      (keepsFlags_setFlagB ev₂.wellFormed.layout ht₂.1 fun _ => ht₂.2)
    exact ends_bind (ends_set (Q := fun _ h' => KeepsFlags h h') k₃) fun _ _ k₄ => ends_pure k₄
  | error e h₂ =>
    have ev₂ := evs.of_error hp
    have ht₂ := ev₂.isTable (Set.notMem_empty r) ht
    have ev₃ : Evolves ∅ Set.univ h₂ (h₂.arrayClear r) := evolves_arrayClear ev₂.wellFormed ht₂
    have k₃ := (k.trans (same.of_error hp).keepsFlags).trans
      (keepsFlags_arrayClear ev₂.wellFormed ht₂.1)
    exact ends_bind (ends_set (Q := fun _ h' => KeepsFlags h h')
      (k₃.trans (keepsFlags_invalidate ev₃.wellFormed.layout r))) fun _ _ k₄ => ends_throw k₄

theorem keepsFlags_collect (layout : h.Layout) (roots : List Ref) :
    KeepsFlags h (h.collect roots).2 := by
  intro r hr
  have sw := swept_sweep layout roots
  rcases header_retract_cases
    ((h.sweepSegments (h.markSegments (h.mark roots))).sweepObjects (h.mark roots)) r with hh | hh
  · rw [show (h.collect roots).2.header r = _ from hh, sw.header, Header.swept]
    split
    · split
      · exact hr
      · exact Header.meaningful_of_flagB rfl
    · exact hr
  · rw [show (h.collect roots).2.header r = _ from hh]
    exact Header.meaningful_of_flagB rfl

/-- Every call sets the flag where it means something, whether it succeeds or runs out of room. -/
theorem Request.keepsFlags_perform {q : Request} (wf : h.WellFormed) (tidy : h.Tidy)
    (allowed : q.Allowed h) : KeepsFlags h (q.perform h) := by
  have htable : ∀ t, h.kind t = .table → h.isValid t = true :=
    fun t ht => tidy.isValid_of_kind (by rw [ht]; decide)
  have run : ∀ {α : Type} {x : HeapM α}, Ends x h (fun _ h' => KeepsFlags h h')
      (fun _ h' => KeepsFlags h h') → KeepsFlags h (after x h) := by
    intro α x hx
    exact after_of_ends (P := fun h' => KeepsFlags h h') hx
  have same : ∀ {α : Type} {x : HeapM α}, Ends x h (fun _ h' => KeepsFlags h h')
      (fun _ h' => h' = h) → KeepsFlags h (after x h) := by
    intro α x hx
    refine run (hx.imp (fun _ _ => id) ?_)
    rintro _ _ rfl
    exact .refl _
  cases q with
  | clear => exact fun r _ => flagged_make h.size r
  | alloc kind => exact run (keepsFlags_alloc wf kind)
  | allocValue v => exact same (keepsFlags_allocValue wf v)
  | copy r => exact same (keepsFlags_copy wf r)
  | invalidate r => exact keepsFlags_invalidate wf.layout r
  | makePermanent r => exact keepsFlags_setPermanent wf.layout r true
  | clearPermanent r => exact keepsFlags_setPermanent wf.layout r false
  | setValue r v => exact keepsFlags_setValue wf.layout allowed.1 v
  | tableNew => exact run (keepsFlags_allocTable wf)
  | tableSet t key value =>
    exact same ((resembles_tableSet wf (htable t) key value).imp (fun _ _ al => al.keepsFlags)
      fun _ _ => id)
  | arrayNew => exact run (keepsFlags_arrayNew wf)
  | arrayPush a r =>
    exact same ((sameObjects_arrayPush wf (htable a) r).imp (fun _ _ o => o.keepsFlags)
      fun _ _ => id)
  | arrayPop a => exact (sameObjects_arrayPop wf (htable a)).keepsFlags
  | arraySet a i r => exact (sameObjects_arraySet wf (htable a) i r).keepsFlags
  | arrayClone a => exact run (keepsFlags_arrayClone wf a)
  | arrayClear a => exact keepsFlags_arrayClear wf allowed
  | collect roots => exact keepsFlags_collect wf.layout roots

/-- In every heap that can be made, flag `b` is set on tables and closures only. -/
theorem Built.flagged (hb : Built h) : h.Flagged := by
  induction hb with
  | make accepted => exact flagged_make _
  | perform built allowed ih =>
    obtain ⟨wf, tidy⟩ := built.wellFormed
    exact (Request.keepsFlags_perform wf tidy allowed).flagged ih

/-! ### Operations on what is no table -/

section

variable (hk : h.kind r ≠ .table)
include hk

theorem arrayElements_of_not_table : h.arrayElements r = [] := by
  rw [arrayElements, arraySlots, chain_of_not_table hk]
  rfl

theorem arraySize_of_not_table : h.arraySize r = 0 := by
  rw [arraySize, arrayElements_of_not_table hk]
  rfl

theorem tableEntries_of_not_table : h.tableEntries r = [] := by
  rw [tableEntries, pairSlots, chain_of_not_table hk]
  rfl

theorem tableGet?_of_not_table (key : Ref) : h.tableGet? r key = none := by
  rw [tableGet?, findKey?, pairSlots, chain_of_not_table hk]
  rfl

theorem tableSet_of_not_table (key value : Ref) : tableSet r key value h = .ok () h := by
  have hhead : h.tableHead r = noNext := by rw [tableHead, if_neg hk]
  rw [tableSet, get_bind_apply, if_pos (.inl hhead)]
  rfl

theorem arrayPush_of_not_table (e : Ref) : arrayPush r e h = .error .heapExhausted h := by
  have hseg : ∀ i, h.segmentOf? r i = none := by
    intro i
    rw [segmentOf?, chain_of_not_table hk]
    rfl
  rw [arrayPush, get_bind_apply]
  simp only [hseg, arraySize_of_not_table hk]
  rfl

theorem arrayPop_of_not_table : h.arrayPop r = (false, h) := by
  rw [arrayPop, arraySize_of_not_table hk]
  rfl

theorem arraySet_of_not_table (i : Nat) (e : Ref) : h.arraySet r i e = (false, h) := by
  rw [arraySet, arraySize_of_not_table hk, if_neg (Nat.not_lt_zero i)]

theorem arrayGet?_of_not_table (i : Nat) : h.arrayGet? r i = none := by
  rw [arrayGet?, arraySize_of_not_table hk, if_neg (Nat.not_lt_zero i)]

end

/-! ### Clearing what is no table -/

theorem setByte_self (o : Nat) : h.setByte o (h.byte o) = h := by
  have hbytes : h.bytes.setIfInBounds o (h.byte o) = h.bytes := by
    refine Array.ext (by simp) fun i _ hi => ?_
    rw [Array.getElem_setIfInBounds hi]
    split
    · next he =>
      subst he
      rw [byte, Array.getD_eq_getD_getElem?, Array.getElem?_eq_getElem hi, Option.getD_some]
    · rfl
  rw [setByte, hbytes]

/-- Nothing changes when a header is written as it is. -/
theorem setHeader_self (hr : r.toNat < h.objectSlots) : h.setHeader r (h.header r) = h := by
  rw [setHeader, header, if_pos hr, Header.toByte_ofByte, setByte_self]

/-- Clearing anything but a table changes nothing, unless it is a closure with a captured record. -/
theorem arrayClear_eq_self_iff (layout : h.Layout) (hf : h.Flagged) (hk : h.kind r ≠ .table)
    (hr : r.toNat < h.objectSlots) :
    h.arrayClear r = h ↔ ∀ c, h.value r = .closure c → c.captured = none := by
  rw [arrayClear_of_not_table hk, setFlagB]
  have htag : ({ h.header r with flagB := false } : Header).tag < 8 := tag_header_lt h r
  have hvalue := value_setHeader layout hr htag
  constructor
  · intro he c hc
    rw [he, hc] at hvalue
    split at hvalue
    · rw [(captured_of_unpack hvalue.symm).2]
      rfl
    · cases hvalue
  · intro hc
    have hflag : (h.header r).flagB = false := by
      by_contra hb
      rw [Bool.not_eq_false] at hb
      obtain ⟨hv, hkind⟩ := hf r hb
      have hclosure : (h.header r).kind? = some .closure :=
        Header.kind?_of_kind (hkind.resolve_left hk) (by simp)
      have hval := value_of_isValid hv
      rw [Value.unpack, hclosure] at hval
      have := hc _ hval
      rw [hb] at this
      cases this
    rw [← hflag]
    exact setHeader_self hr

/-- Behind the last object, clearing writes a zero. -/
theorem arrayClear_of_le (hr : h.objectSlots ≤ r.toNat) :
    h.arrayClear r = h.setByte (objectOffset r) 0 := by
  have hh : h.header r = Header.free := by rw [header, if_neg (not_lt.2 hr)]
  have hk : h.kind r ≠ .table := by
    rw [kind, hh]
    decide
  rw [arrayClear_of_not_table hk, setFlagB, hh]
  rfl

theorem arrayClear_eq_self_iff_of_le (hr : h.objectSlots ≤ r.toNat)
    (inside : objectOffset r < h.size) :
    h.arrayClear r = h ↔ h.byte (objectOffset r) = 0 := by
  rw [arrayClear_of_le hr]
  constructor
  · intro he
    have hb := byte_setByte h (objectOffset r) (objectOffset r) 0
    rwa [he, if_pos ⟨rfl, inside⟩] at hb
  · intro hb
    rw [← hb, setByte_self]

/-- A byte behind the row is not there to be written. -/
theorem setByte_of_size_le {o : Nat} (hle : h.size ≤ o) (b : UInt8) : h.setByte o b = h := by
  rw [setByte, Array.setIfInBounds_eq_of_size_le hle]

/-- An index whose header lies behind the row is behind the last object. -/
theorem Layout.objectSlots_le_of_size_le (layout : h.Layout)
    (outside : h.size ≤ objectOffset r) : h.objectSlots ≤ r.toNat := by
  have hend := layout.objectEnd_eq
  have ordered := layout.ordered
  have inside := layout.inside
  rw [objectOffset, objectSize] at outside
  omega

/-- **What is no table is left alone.** Storing, appending, dropping and replacing elements of
anything but a table or an array change nothing, and what is read is that of an empty table.
Clearing changes nothing either, except that a closure loses the record it captured, and that
behind the last object a zero is written. If the zero would come to lie behind the row, then the
write is out of range: whatever is written there, the heap has no such byte. -/
theorem ignores_other_objects (hb : Built h) (hr : ¬ h.IsTable r) :
    (∀ key value, tableSet r key value h = .ok () h)
    ∧ (∀ e, arrayPush r e h = .error .heapExhausted h)
    ∧ h.arrayPop r = (false, h)
    ∧ (∀ i e, h.arraySet r i e = (false, h))
    ∧ (r.toNat < h.objectSlots →
        (h.arrayClear r = h ↔ ∀ c, h.value r = .closure c → c.captured = none))
    ∧ (h.objectSlots ≤ r.toNat → objectOffset r < h.size →
        (h.arrayClear r = h ↔ h.byte (objectOffset r) = 0))
    ∧ (h.size ≤ objectOffset r → h.arrayClear r = h.setByte (objectOffset r) 0
        ∧ ∀ b, h.setByte (objectOffset r) b = h)
    ∧ (∀ key, h.tableGet? r key = none) ∧ h.tableSize r = 0 ∧ h.tableEntries r = []
    ∧ h.arraySize r = 0 ∧ (∀ i, h.arrayGet? r i = none) ∧ h.arrayElements r = [] := by
  obtain ⟨wf, tidy⟩ := hb.wellFormed
  have hk : h.kind r ≠ .table := by
    intro hk
    exact hr ⟨tidy.isValid_of_kind (by rw [hk]; decide), hk⟩
  refine ⟨tableSet_of_not_table hk, arrayPush_of_not_table hk, arrayPop_of_not_table hk,
    arraySet_of_not_table hk, arrayClear_eq_self_iff wf.layout hb.flagged hk,
    arrayClear_eq_self_iff_of_le,
    fun outside => ⟨arrayClear_of_le (wf.layout.objectSlots_le_of_size_le outside),
      setByte_of_size_le outside⟩, tableGet?_of_not_table hk, ?_, tableEntries_of_not_table hk,
    arraySize_of_not_table hk, arrayGet?_of_not_table hk, arrayElements_of_not_table hk⟩
  rw [tableSize, tableEntries_of_not_table hk]
  rfl

/-- An array, an integer, a closure that captured the array, and a slot that was given free. -/
def assorted : Heap :=
  [Request.arrayNew, .allocValue (.int 5), .allocValue (.closure ⟨.code 3, some 0⟩),
    .allocValue .nil, .invalidate 3].foldl Request.perform (make 80)

theorem built_assorted : Built assorted :=
  Built.foldl (.make (by decide)) (by simp [Request.Allowed])

theorem assorted_evaluates : assorted.objectSlots = 4 ∧ assorted.size = 80
    ∧ assorted.kind 1 = .int ∧ assorted.value 1 = .int 5
    ∧ assorted.kind 2 = .closure ∧ assorted.value 2 = .closure ⟨.code 3, some 0⟩
    ∧ (assorted.arrayClear 2).value 2 = .closure ⟨.code 3, none⟩
    ∧ assorted.kind 3 = .nil ∧ assorted.value 3 = .nil
    ∧ assorted.kind 4 = .nil ∧ assorted.byte (objectOffset 4) = 0 := by
  decide +kernel

/-- Neither the integer nor the free slot nor the room behind the objects is touched. -/
theorem ignores_assorted : Built assorted
    ∧ (¬ assorted.IsTable 1 ∧ assorted.arrayClear 1 = assorted)
    ∧ (¬ assorted.IsTable 3 ∧ assorted.arrayClear 3 = assorted)
    ∧ ¬ assorted.IsTable 4 ∧ assorted.arrayClear 4 = assorted := by
  obtain ⟨hslots, hsize, hk₁, hv₁, -, -, -, hk₃, hv₃, hk₄, hbyte⟩ := assorted_evaluates
  have h₁ : ¬ assorted.IsTable 1 := fun ht => by simp [IsTable, hk₁] at ht
  have h₃ : ¬ assorted.IsTable 3 := fun ht => by simp [IsTable, hk₃] at ht
  have h₄ : ¬ assorted.IsTable 4 := fun ht => by simp [IsTable, hk₄] at ht
  obtain ⟨-, -, -, -, clear₁, -⟩ := ignores_other_objects built_assorted h₁
  obtain ⟨-, -, -, -, clear₃, -⟩ := ignores_other_objects built_assorted h₃
  obtain ⟨-, -, -, -, -, clear₄, -⟩ := ignores_other_objects built_assorted h₄
  rw [hslots] at clear₁ clear₃ clear₄
  rw [hsize] at clear₄
  exact ⟨built_assorted, ⟨h₁, (clear₁ (by decide)).2 (by simp [hv₁])⟩,
    ⟨h₃, (clear₃ (by decide)).2 (by simp [hv₃])⟩, h₄, (clear₄ (by decide) (by decide)).2 hbyte⟩

/-- The closure had a record, and has none after it is cleared. -/
theorem clearing_drops_record : Built assorted ∧ ¬ assorted.IsTable 2
    ∧ assorted.value 2 = .closure ⟨.code 3, some 0⟩
    ∧ (assorted.arrayClear 2).value 2 = .closure ⟨.code 3, none⟩
    ∧ assorted.arrayClear 2 ≠ assorted := by
  obtain ⟨-, -, -, -, hk, hv, hv', -⟩ := assorted_evaluates
  have hr : ¬ assorted.IsTable 2 := fun ht => by simp [IsTable, hk] at ht
  refine ⟨built_assorted, hr, hv, hv', fun he => ?_⟩
  rw [he, hv] at hv'
  cases hv'

end Heap

end SwarmVm
