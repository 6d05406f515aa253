import SwarmVm.Proofs.Heap.Spared

/-!
# What closures capture

A closure may name an array, the activation record that it captured. Operations on tables and arrays
leave every other object as it was, and no object comes or goes: what is written lies in segments,
except for the first segment that a table names. So the only operation by which a record can get
captured is the one that makes a closure.

## Main definitions

* `Heap.Captures` — some closure captured the record
* `Heap.IsRecord`, `Heap.Sealed` — arrays, and heaps in which only arrays are captured
* `Heap.Resembles` — the same objects, up to the segments of tables
* `Heap.Mints` — closures stay, and new ones capture given records only

## Main results

* `Heap.resembles_tableSet`, `Heap.sameObjects_arrayPush` — tables and arrays
* `Heap.mints_allocValue`, `Heap.mints_arrayClone` and the like — new objects
* `Heap.sealed_collect`, `Heap.captures_of_collect` — collections
-/

namespace SwarmVm

/-- The record that a value brings along. -/
def Value.captured? : Value → Option Ref
  | .closure c => c.captured
  | _ => none

theorem Value.captured?_eq_none {v : Value} (hv : ∀ c, v ≠ .closure c) : v.captured? = none := by
  cases v with
  | closure c => exact absurd rfl (hv c)
  | _ => rfl

namespace Heap

variable {h h' h'' : Heap} {r t a : Ref} {s p : SegRef} {l l₁ l₂ : List SegRef} {S : Set Ref}
  {v : Value}

/-- Some closure captured the object `a`. -/
def Captures (h : Heap) (a : Ref) : Prop := ∃ r, (h.value r).captured? = some a

/-- The object is an array. -/
def IsRecord (h : Heap) (a : Ref) : Prop := h.isValid a = true ∧ h.isArray a = true

/-- Whatever closures captured is an array. -/
def Sealed (h : Heap) : Prop := ∀ a, h.Captures a → h.IsRecord a

theorem captures_of_value {c : Closure} (hv : h.value r = .closure c) (hc : c.captured = some a) :
    h.Captures a := ⟨r, by rw [hv]; exact hc⟩

theorem exists_closure_of_captured? (hv : v.captured? = some a) :
    ∃ c, v = .closure c ∧ c.captured = some a := by
  cases v with
  | closure c => exact ⟨c, rfl, hv⟩
  | _ => cases hv

theorem isTable_of_isArray (hv : h.isValid a = true) (ha : h.isArray a = true) : h.IsTable a := by
  rw [isArray, Bool.and_eq_true, decide_eq_true_eq] at ha
  exact ⟨hv, ha.1⟩

theorem IsRecord.isTable (hr : h.IsRecord a) : h.IsTable a := isTable_of_isArray hr.1 hr.2

/-! ### The same objects -/

/-- The objects are the same, except that a table may have other segments. -/
structure Resembles (h h' : Heap) : Prop where
  /-- The headers are the same. -/
  header : ∀ r, h'.header r = h.header r
  /-- What is no table has its value. -/
  value : ∀ r, h.kind r ≠ .table → h'.value r = h.value r

namespace Resembles

theorem refl (h : Heap) : Resembles h h := ⟨fun _ => rfl, fun _ _ => rfl⟩

theorem kind (al : Resembles h h') (r : Ref) : h'.kind r = h.kind r := by
  rw [Heap.kind, Heap.kind, al.header]

theorem isValid (al : Resembles h h') (r : Ref) : h'.isValid r = h.isValid r := by
  rw [Heap.isValid, Heap.isValid, al.header]

theorem isArray (al : Resembles h h') (r : Ref) : h'.isArray r = h.isArray r := by
  rw [Heap.isArray, Heap.isArray, al.kind, al.header]

theorem trans (al : Resembles h h') (al' : Resembles h' h'') : Resembles h h'' :=
  ⟨fun r => (al'.header r).trans (al.header r),
    fun r hk => (al'.value r (al.kind r ▸ hk)).trans (al.value r hk)⟩

end Resembles

theorem SameObjects.resembles (o : SameObjects h h') : Resembles h h' :=
  ⟨o.header, fun r _ => o.value r⟩

theorem SameObjects.refl (h : Heap) : SameObjects h h := ⟨rfl, fun _ _ => rfl⟩

theorem sameObjects_setElement (layout : h.Layout) (hs : s.toNat < h.segmentSlots) {k : Nat}
    (hk : k < slotsPerSegment) (e : Option Ref) : SameObjects h (h.setElement s k e) :=
  WritesIn.sameObjects_of_segment layout hs (writesIn_setElement h s hk e)

theorem sameObjects_setNext (layout : h.Layout) (hp : p.toNat < h.segmentSlots) (q : SegRef) :
    SameObjects h (h.setNext p q) :=
  WritesIn.sameObjects_of_segment layout hp (writesIn_setLink h p _)

theorem resembles_setTableHead (ht : h.IsTable t) (q : SegRef) :
    Resembles h (h.setTableHead t q) := by
  refine ⟨fun r => header_setTableHead h t r q, fun r hk => ?_⟩
  refine (writesIn_setTableHead h t q).value_of_ne ?_
  rintro rfl
  exact hk ht.2

/-! ### Tables -/

theorem resembles_unlinkSegment (wf : h.WellFormed) (ht : h.IsTable t) (hs : s ∈ h.chain t) :
    Resembles h (h.unlinkSegment t s) := by
  rw [unlinkSegment]
  rcases segmentBefore?_cases hs with ⟨l₁, b, l₂, hc, hb⟩ | ⟨l₂, hc, hb⟩
  · have hmem : b ∈ h.chain t := by
      rw [hc]
      simp
    rw [hb]
    exact (sameObjects_cut wf.layout (wf.segment_lt ht hmem) _ s).resembles
  · rw [hb]
    simp only
    split
    · exact .refl h
    · have w := writesIn_setTableHead h t (h.next s)
      exact (resembles_setTableHead ht _).trans
        (sameObjects_freeSegment (wf.layout.of_writesIn w) s).resembles

theorem sameObjects_setPair (layout : h.Layout) {q : PairSlot}
    (hs : q.segment.toNat < h.segmentSlots) (hq : q.pair < pairsPerSegment)
    (key value : Option Ref) : SameObjects h ((h.setKey q key).setFieldValue q value) := by
  obtain ⟨hk, hk'⟩ := PairSlot.key_lt hq
  have w : WritesIn _ _ h (h.setKey q key) := writesIn_setElement h q.segment hk key
  exact (sameObjects_setElement layout hs hk key).trans
    (sameObjects_setElement (layout.of_writesIn w) (by rwa [w.segmentSlots]) hk' value)

theorem resembles_erasePair (wf : h.WellFormed) (ht : h.IsTable t) {q : PairSlot}
    (hq : q ∈ h.pairSlots t) : Resembles h (h.erasePair t q) := by
  obtain ⟨hs, hp⟩ := mem_pairSlots hq
  have al := (sameObjects_setPair wf.layout (wf.segment_lt ht hs) hp none none).resembles
  obtain ⟨-, wf', ht', hc⟩ := spares_setPair wf ht hs hp none none
  rw [erasePair]
  split
  · exact al.trans (resembles_unlinkSegment wf' ht' (by rwa [hc]))
  · exact al

/-- A chain grows by a segment at its end. -/
theorem sameObjects_append (wf : h.WellFormed) (ht : h.IsTable t) (hp : p ∈ h.chain t)
    (n : h.NewSegment s h') : SameObjects h (h'.setNext p s) := by
  have ev : Evolves ∅ Set.univ h h' := n.evolves wf
  have ht' := ev.isTable (Set.notMem_empty t) ht
  rw [← n.chain wf ht] at hp
  exact n.objects.trans (sameObjects_setNext n.layout (ev.wellFormed.segment_lt ht' hp) s)

theorem resembles_insertPair (wf : h.WellFormed) (ht : h.IsTable t) (hne : h.chain t ≠ [])
    (key value : Ref) :
    Ends (insertPair t key value) h (fun _ h' => Resembles h h') fun _ h' => h' = h := by
  refine ends_get_bind ?_
  cases hf : h.freePair? t with
  | some q =>
    obtain ⟨hs, hp⟩ := mem_pairSlots (List.mem_of_find?_eq_some hf)
    exact ends_modify (sameObjects_setPair wf.layout (wf.segment_lt ht hs) hp _ _).resembles
  | none =>
    refine ends_get_bind (ends_bind (newSegment_allocSegment wf.layout) fun s h₁ n => ?_)
    rw [List.getLast?_eq_some_getLast hne, Option.getD_some]
    have o := sameObjects_append wf ht (List.getLast_mem hne) n
    obtain ⟨-, wf', ht', hc⟩ := spares_append wf ht (List.dropLast_append_getLast hne).symm n
    refine ends_bind (ends_modify (Q := fun _ h' => h' = h₁.setNext _ s) rfl) fun _ h₂ he => ?_
    subst he
    have hs : s ∈ (h₁.setNext ((h.chain t).getLast hne) s).chain t := by
      rw [hc]
      simp
    exact ends_modify (o.trans (sameObjects_setPair (q := ⟨s, 0⟩) wf'.layout
      (wf'.segment_lt ht' hs) (Nat.succ_pos _) _ _)).resembles

/-- Storing under a key leaves the objects alone. -/
theorem resembles_tableSet (wf : h.WellFormed) (ht : h.kind t = .table → h.isValid t = true)
    (key value : Ref) :
    Ends (tableSet t key value) h (fun _ h' => Resembles h h') fun _ h' => h' = h := by
  refine ends_get_bind ?_
  split
  · exact ends_pure (.refl h)
  · next hcond =>
    rw [not_or] at hcond
    have hkind : h.kind t = .table := by
      by_contra hkind
      exact hcond.1 (by rw [tableHead, if_neg hkind])
    have ht : h.IsTable t := ⟨ht hkind, hkind⟩
    have hne : h.chain t ≠ [] := by
      intro hnil
      have hl := wf.linked t ht
      rw [hnil] at hl
      exact hcond.1 hl
    split
    · next q hq _ => exact ends_set (resembles_erasePair wf ht (List.mem_of_find?_eq_some hq))
    · next q hq _ =>
      obtain ⟨hs, hp⟩ := mem_pairSlots (List.mem_of_find?_eq_some hq)
      exact ends_set (sameObjects_setElement wf.layout (wf.segment_lt ht hs)
        (PairSlot.key_lt hp).2 _).resembles
    · exact ends_pure (.refl h)
    · exact resembles_insertPair wf ht hne key value

/-! ### Arrays -/

theorem sameObjects_arraySet (wf : h.WellFormed) (ht : h.kind a = .table → h.isValid a = true)
    (i : Nat) (r : Ref) : SameObjects h (h.arraySet a i r).2 := by
  rw [arraySet]
  split
  · next s hs =>
    split at hs
    · obtain ⟨htab, hmem⟩ := isTable_of_segmentOf? ht hs
      exact sameObjects_setElement wf.layout (wf.segment_lt htab hmem) (slotOf_lt i) (some r)
    · cases hs
  · exact .refl h

theorem sameObjects_extendChain (wf : h.WellFormed) (ht : h.kind a = .table → h.isValid a = true)
    (size : Nat) :
    Ends (extendChain a size) h (fun _ h' => SameObjects h h') fun _ h' => h' = h := by
  refine ends_get_bind ?_
  split
  · next p hp =>
    split at hp
    · cases hp
    · obtain ⟨htab, hmem⟩ := isTable_of_segmentOf? ht hp
      refine ends_bind (newSegment_allocSegment wf.layout) fun s h₁ n => ?_
      refine ends_bind (ends_modify (Q := fun _ h' => h' = h₁.setNext p s) rfl) fun _ h₂ he => ?_
      exact ends_pure (he ▸ sameObjects_append wf htab hmem n)
  · exact ends_throw rfl

theorem sameObjects_arrayPush (wf : h.WellFormed) (ht : h.kind a = .table → h.isValid a = true)
    (r : Ref) : Ends (arrayPush a r) h (fun _ h' => SameObjects h h') fun _ h' => h' = h := by
  refine ends_get_bind ?_
  simp only
  split
  · next s hs =>
    obtain ⟨htab, hmem⟩ := isTable_of_segmentOf? ht hs
    exact ends_modify (sameObjects_setElement wf.layout (wf.segment_lt htab hmem) (slotOf_lt _)
      (some r))
  · next hfull =>
    refine ends_bind (((sameObjects_extendChain wf ht _).and (spares_extendChain wf ht hfull)).imp
      (fun _ _ => id) fun _ _ h => h.1) fun s h₁ hs => ?_
    obtain ⟨o, -, wf', ht', hc⟩ := hs
    have hmem : s ∈ h₁.chain a := by
      rw [hc]
      simp
    exact ends_modify (o.trans (sameObjects_setElement wf'.layout (wf'.segment_lt ht' hmem)
      (slotOf_lt _) (some r)))

theorem sameObjects_arrayPushAll (wf : h.WellFormed) (hv : h.isValid a = true) (rs : List Ref) :
    Ends (arrayPushAll a rs) h (fun _ h' => SameObjects h h') fun _ h' => SameObjects h h' := by
  induction rs generalizing h with
  | nil => exact ends_pure (.refl h)
  | cons r rs ih =>
    have push := (sameObjects_arrayPush wf (fun _ => hv) r).and
      (evolves_arrayPush (A := Set.univ) (a := a) (r := r) wf (fun _ => hv) (Set.mem_univ _))
    refine ends_bind (push.imp (fun _ _ => id) ?_) fun _ h₁ hs => ?_
    · rintro _ _ ⟨rfl, -⟩
      exact .refl _
    · obtain ⟨o, ev⟩ := hs
      exact (ih ev.wellFormed (ev.isValid a (Set.notMem_empty a) hv)).imp
        (fun _ _ => o.trans) fun _ _ => o.trans

theorem sameObjects_arrayPop (wf : h.WellFormed) (ht : h.kind a = .table → h.isValid a = true) :
    SameObjects h (h.arrayPop a).2 := by
  rw [arrayPop]
  simp only
  split
  · exact .refl h
  · split
    · exact .refl h
    · next s hs =>
      obtain ⟨htab, hmem⟩ := isTable_of_segmentOf? ht hs
      have w := writesIn_setElement h s (slotOf_lt (h.arraySize a - 1)) none
      have o := sameObjects_setElement wf.layout (wf.segment_lt htab hmem)
        (slotOf_lt (h.arraySize a - 1)) none
      split
      · split
        · next p hp =>
          have hlt := wf.segment_lt htab (isTable_of_segmentOf? ht hp).2
          exact o.trans (sameObjects_cut (wf.layout.of_writesIn w) (by rwa [w.segmentSlots]) _ s)
        · exact o
      · exact o

theorem sameObjects_arrayPopMany (wf : h.WellFormed) (hv : h.isValid a = true) (n : Nat) :
    SameObjects h (h.arrayPopMany a n) := by
  induction n generalizing h with
  | zero => exact .refl h
  | succ n ih =>
    have ev : Evolves ∅ Set.univ h (h.arrayPop a).2 := evolves_arrayPop wf fun _ => hv
    have o := sameObjects_arrayPop wf fun _ => hv
    rw [arrayPopMany]
    split
    · next h₁ he =>
      rw [he] at ev o
      exact o.trans (ih ev.wellFormed (ev.isValid a (Set.notMem_empty a) hv))
    · next h₁ he =>
      rw [he] at o
      exact o

/-! ### Closures -/

/-- All objects are still there, closures and arrays are what they were, and every closure captured
what some closure captured before, or an object of `S`. -/
structure Mints (S : Set Ref) (h h' : Heap) : Prop where
  /-- Objects stay. -/
  isValid : ∀ {r}, h.isValid r = true → h'.isValid r = true
  /-- Closures stay as they are. -/
  closure : ∀ {r c}, h.value r = .closure c → h'.value r = .closure c
  /-- New ones capture given objects only. -/
  captures : ∀ {a}, h'.Captures a → h.Captures a ∨ a ∈ S
  /-- Arrays stay arrays. -/
  record : ∀ {a}, h.IsRecord a → h'.IsRecord a

namespace Mints

theorem refl (h : Heap) : Mints S h h := ⟨id, id, .inl, id⟩

theorem trans (mi : Mints S h h') (mi' : Mints S h' h'') : Mints S h h'' :=
  ⟨fun hv => mi'.isValid (mi.isValid hv), fun hv => mi'.closure (mi.closure hv),
    fun hc => (mi'.captures hc).elim mi.captures .inr, fun hr => mi'.record (mi.record hr)⟩

theorem not_captures (mi : Mints ∅ h h') (hc : ¬ h.Captures a) : ¬ h'.Captures a :=
  fun hc' => (mi.captures hc').elim hc (Set.notMem_empty a)

/-- A heap stays sealed when new closures capture arrays. -/
theorem isSealed (mi : Mints S h h') (hs : h.Sealed) (new : ∀ a ∈ S, h'.IsRecord a) :
    h'.Sealed := by
  intro a hc
  rcases mi.captures hc with hc | ha
  · exact mi.record (hs a hc)
  · exact new a ha

end Mints

theorem Resembles.mints (al : Resembles h h') : Mints S h h' where
  isValid {r} hv := (al.isValid r).trans hv
  closure {r c} hv := by
    rw [al.value r, hv]
    rw [(kind_of_value hv (by simp)).2]
    simp [Value.kind]
  captures {a} hc := by
    obtain ⟨r, hr⟩ := hc
    refine .inl ⟨r, ?_⟩
    obtain ⟨c, hv, -⟩ := exists_closure_of_captured? hr
    have hk := (kind_of_value hv (by simp)).2
    rw [al.kind] at hk
    rwa [al.value r (by rw [hk]; simp [Value.kind])] at hr
  record {a} hr := ⟨(al.isValid a).trans hr.1, (al.isArray a).trans hr.2⟩

/-- One object is written that is neither a closure nor an array. -/
theorem mints_of_object (header : ∀ r', r' ≠ r → h'.header r' = h.header r')
    (value : ∀ r', r' ≠ r → h'.value r' = h.value r')
    (hv : h.isValid r = true → h'.isValid r = true) (hc : ∀ c, h.value r ≠ .closure c)
    (ha : ¬ h.IsRecord r) (new : ∀ a, (h'.value r).captured? = some a → a ∈ S) :
    Mints S h h' where
  isValid {r'} hr' := by
    by_cases ne : r' = r
    · exact ne ▸ hv (ne ▸ hr')
    · rwa [Heap.isValid, header r' ne]
  closure {r' c} hr' := by
    rw [value r', hr']
    rintro rfl
    exact hc c hr'
  captures {a} hcap := by
    obtain ⟨r', hr'⟩ := hcap
    by_cases ne : r' = r
    · exact .inr (new a (ne ▸ hr'))
    · rw [value r' ne] at hr'
      exact .inl ⟨r', hr'⟩
  record {a} hr := by
    have ne : a ≠ r := fun e => ha (e ▸ hr)
    rw [IsRecord, isValid, isArray, kind, header a ne]
    exact hr

/-- The flags of a table are changed. An array stays one. -/
theorem mints_setHeader (wf : h.WellFormed) (ht : h.IsTable t) {header : Header}
    (valid : header.valid = true) (tag : header.tag = (h.header t).tag)
    (flagA : (h.header t).flagA = true → header.flagA = true) :
    Mints S h (h.setHeader t header) := by
  have hlt := lt_objectSlots_of_isValid ht.1
  have w := writesIn_setHeader h t header
  have hh := header_setHeader wf.layout hlt (tag ▸ tag_header_lt h t)
  have hk := kind_setHeader wf.layout hlt tag
  have closed : ∀ {g : Heap}, g.kind t = .table → ∀ c, g.value t ≠ .closure c := by
    intro g hg c hv
    rw [(kind_of_value hv (by simp)).2] at hg
    cases hg
  refine ⟨fun {r} hv => ?_, fun {r c} hv => ?_, fun {a} hc => .inl ?_, fun {a} hr => ?_⟩
  · by_cases ne : r = t
    · rw [ne, isValid, hh, valid]
    · rwa [isValid, w.header_of_ne ne]
  · rw [w.value_of_ne, hv]
    rintro rfl
    exact closed ht.2 c hv
  · obtain ⟨r, hr⟩ := hc
    refine ⟨r, ?_⟩
    rwa [w.value_of_ne] at hr
    rintro rfl
    obtain ⟨c, hv, -⟩ := exists_closure_of_captured? hr
    exact closed (hk.trans ht.2) c hv
  · by_cases ne : a = t
    · subst ne
      have ha := hr.2
      rw [isArray, Bool.and_eq_true] at ha
      rw [IsRecord, isValid, isArray, hh, valid, hk, ht.2, flagA ha.2]
      exact ⟨rfl, rfl⟩
    · rw [IsRecord, isValid, isArray, kind, w.header_of_ne ne]
      exact hr

theorem mints_setFlagB (wf : h.WellFormed) (ht : h.IsTable t) (flag : Bool) :
    Mints S h (h.setFlagB t flag) := by
  refine mints_setHeader wf ht ?_ ?_ id
  · exact ht.1
  · rfl

theorem mints_arrayClear (wf : h.WellFormed) (ht : h.IsTable a) : Mints S h (h.arrayClear a) := by
  have ev : Evolves ∅ Set.univ h (h.arrayPopMany a (h.arraySize a)) :=
    evolves_arrayPopMany wf ht.1 _
  exact (sameObjects_arrayPopMany wf ht.1 _).resembles.mints.trans
    (mints_setFlagB ev.wellFormed (ev.isTable (Set.notMem_empty a) ht) false)

theorem mints_setPermanent (wf : h.WellFormed) (r : Ref) (permanent : Bool) :
    Mints S h (h.setPermanent r permanent) := by
  have same := fun r' => value_setPermanent wf.layout r r' permanent
  refine ⟨fun {r'} hv => (same r').1.trans hv, fun {r' c} hv => (same r').2.trans hv,
    fun {a} hc => .inl ?_, fun {a} hr => ?_⟩
  · obtain ⟨r', hr'⟩ := hc
    rw [(same r').2] at hr'
    exact ⟨r', hr'⟩
  · refine ⟨(same a).1.trans hr.1, ?_⟩
    have u := (spares_setPermanent wf r permanent).unaltered hr.1
    exact (u.isArray hr.isTable).trans hr.2

/-! ### New objects -/

theorem value_of_not_isValid (hv : h.isValid r = false) : h.value r = .nil := by
  rw [isValid] at hv
  simp only [value, hv, Bool.false_eq_true, if_false]

/-- A new object has no value yet. -/
theorem mints_allocSlot (wf : h.WellFormed) :
    Ends allocSlot h (fun r h' => Mints S h h' ∧ h'.value r = .nil) fun _ h' => h' = h := by
  refine (allocSlot_takes wf.layout).imp (fun r h' hr => ?_) fun _ _ he => he.1
  obtain ⟨-, h₀, m, rfl⟩ := hr
  have hnil : (h₀.initObject r).value r = .nil := by
    rw [value, m.header_initObject]
    rfl
  refine ⟨mints_of_object (fun _ => m.header_initObject_of_ne) (fun _ => m.value_initObject_of_ne)
    (fun hv => ?_) (fun c hv => ?_) (fun hr => ?_) fun a ha => ?_, hnil⟩
  · rw [m.free] at hv
    cases hv
  · rw [value_of_not_isValid m.free] at hv
    cases hv
  · exact absurd hr.1 (by simp [m.free])
  · rw [hnil] at ha
    cases ha

/-- A fresh object gets a value. -/
theorem mints_setValue (hnil : h.value r = .nil) (hk : h.kind r ≠ .table)
    (layout : h.Layout) (hv : h.isValid r = true) (new : ∀ a, v.captured? = some a → a ∈ S) :
    Mints S h (h.setValue r v) := by
  have w := writesIn_setValue h r v
  have hlt := lt_objectSlots_of_isValid hv
  refine mints_of_object (fun _ => w.header_of_ne) (fun _ => w.value_of_ne)
    (fun _ => (isValid_setValue layout hlt v r).trans hv) (fun c hc => ?_)
    (fun hr => hk hr.isTable.2) fun a ha => new a ?_
  · rw [hnil] at hc
    cases hc
  · rwa [value_setValue layout hv] at ha

theorem kind_ne_table_of_value (hnil : h.value r = .nil) (hv : h.isValid r = true) :
    h.kind r ≠ .table := by
  intro hk
  rw [value_of_kind_table hv hk] at hnil
  cases hnil

/-- A new object captures what its value says. -/
theorem mints_allocValue (wf : h.WellFormed) (new : ∀ a, v.captured? = some a → a ∈ S) :
    Ends (allocValue v) h (fun _ h' => Mints S h h') fun _ h' => h' = h := by
  refine ends_bind (((mints_allocSlot (S := S) wf).and
    (newObject_allocSlot (A := Set.univ) wf)).imp
    (fun _ _ => id) fun _ _ he => he.1) fun r h₁ hn => ?_
  obtain ⟨⟨mi, hnil⟩, n⟩ := hn
  refine ends_bind (ends_modify (Q := fun _ h₂ => Mints S h h₂) ?_) fun _ _ mi₂ => ends_pure mi₂
  exact mi.trans (mints_setValue hnil (kind_ne_table_of_value hnil n.isValid)
    n.evolves.wellFormed.layout n.isValid new)

/-- A copy of a closure captures nothing new. -/
theorem mints_copy (wf : h.WellFormed) (r : Ref) :
    Ends (copy r) h (fun _ h' => Mints ∅ h h') fun _ h' => h' = h := by
  have captured : ∀ v, h.value r = v → Ends (allocValue v) h (fun _ h' => Mints ∅ h h')
      fun _ h' => h' = h := by
    rintro v rfl
    refine (mints_allocValue (S := {a | h.Captures a}) wf fun a ha => ⟨r, ha⟩).imp
      (fun _ _ mi => ⟨mi.isValid, mi.closure, fun hc => .inl ?_, mi.record⟩) fun _ _ => id
    exact (mi.captures hc).elim id id
  refine ends_get_bind ?_
  cases hv : h.value r with
  | table t => exact ends_pure (.refl h)
  | _ => exact captured _ hv

/-- An object that was made for nothing is given back. -/
theorem Mints.invalidate (mi : Mints S h h') (wf : h'.WellFormed) (free : h.isValid r = false) :
    Mints S h (h'.invalidate r) := by
  rw [Heap.invalidate]
  split
  · next hr =>
    have w := writesIn_setHeader h' r Header.free
    have hnil : (h'.setHeader r Header.free).value r = .nil := by
      rw [value, header_setHeader wf.layout hr (by decide)]
      rfl
    refine ⟨fun {r'} hv => ?_, fun {r' c} hv => ?_, fun {a} hc => mi.captures ?_,
      fun {a} hrec => ?_⟩
    · have ne : r' ≠ r := by
        rintro rfl
        rw [free] at hv
        cases hv
      rw [Heap.isValid, w.header_of_ne ne]
      exact mi.isValid hv
    · rw [w.value_of_ne, mi.closure hv]
      rintro rfl
      rw [value_of_not_isValid free] at hv
      cases hv
    · obtain ⟨r', hr'⟩ := hc
      refine ⟨r', ?_⟩
      rwa [w.value_of_ne] at hr'
      rintro rfl
      rw [hnil] at hr'
      cases hr'
    · have ne : a ≠ r := by
        rintro rfl
        rw [hrec.1] at free
        cases free
      rw [IsRecord, Heap.isValid, isArray, kind, w.header_of_ne ne]
      exact mi.record hrec
  · exact mi

theorem mints_allocTable (wf : h.WellFormed) :
    Ends alloc.allocTable h (fun _ h' => Mints S h h') fun _ h' => Mints S h h' := by
  refine ends_bind (((mints_allocSlot (S := S) wf).and
    (newObject_allocSlot (A := Set.univ) wf)).imp
    (fun _ _ => id) ?_) fun r h₁ hn => ends_get_bind ?_
  · rintro _ _ ⟨rfl, _⟩
    exact .refl _
  obtain ⟨⟨mi, hnil⟩, n⟩ := hn
  have wf₁ := n.evolves.wellFormed
  have seg := newSegment_allocSegment wf₁.layout
  cases ha : allocSegment h₁ with
  | ok s h₂ =>
    have ns := seg.of_ok ha
    have hnil₂ := (ns.objects.value r).trans hnil
    have hv₂ := (ns.objects.isValid r).trans n.isValid
    refine ends_bind (ends_set (Q := fun _ h' => Mints S h h') ?_) fun _ _ mi₃ => ends_pure mi₃
    refine (mi.trans ns.objects.resembles.mints).trans (mints_setValue hnil₂
      (kind_ne_table_of_value hnil₂ hv₂) ns.layout hv₂ fun a ha => ?_)
    cases ha
  | error e h₂ =>
    have he := seg.of_error ha
    subst he
    exact ends_bind (ends_set (Q := fun _ h' => Mints S h h') (mi.invalidate wf₁ n.free))
      fun _ _ mi₃ => ends_throw mi₃

/-- A new array is one. -/
theorem mints_arrayNew (wf : h.WellFormed) : Ends arrayNew h
    (fun r h' => Mints S h h' ∧ h'.IsRecord r) fun _ h' => Mints S h h' := by
  refine ends_bind (((mints_allocTable (S := S) wf).and
    (newObject_allocTable (A := Set.univ) wf)).imp
    (fun _ _ => id) fun _ _ he => he.1) fun r h₁ hn => ?_
  obtain ⟨mi, n, ht⟩ := hn
  have wf₁ := n.evolves.wellFormed
  have hlt := lt_objectSlots_of_isValid ht.1
  refine ends_bind (ends_modify (Q := fun _ h₂ => Mints S h h₂ ∧ h₂.IsRecord r) ⟨?_, ?_⟩)
    fun _ _ h₂ => ends_pure h₂
  · exact mi.trans (mints_setHeader wf₁ ht ht.1 rfl fun _ => rfl)
  · have hh : (h₁.setFlagA r true).header r = { h₁.header r with flagA := true } :=
      header_setHeader wf₁.layout hlt (tag_header_lt h₁ r)
    have hk : (h₁.setFlagA r true).kind r = h₁.kind r := kind_setHeader wf₁.layout hlt rfl
    rw [IsRecord, isValid, isArray, hh, hk, ht.2]
    exact ⟨ht.1, rfl⟩

/-- A copy of an array is an array. -/
theorem mints_arrayClone (wf : h.WellFormed) (a : Ref) : Ends (arrayClone a) h
    (fun r h' => Mints S h h' ∧ h'.IsRecord r) fun _ h' => Mints S h h' := by
  refine ends_get_bind (ends_bind (((mints_arrayNew (S := S) wf).and
    (newObject_arrayNew (A := Set.univ) wf)).imp (fun _ _ => id) fun _ _ he => he.1)
    fun r h₁ hn => ends_get_bind ?_)
  obtain ⟨⟨mi, hrec⟩, n, ht⟩ := hn
  have wf₁ := n.evolves.wellFormed
  have evs := evolves_arrayPushAll (A := Set.univ) wf₁ n.isValid
    fun e (_ : e ∈ h.arrayElements a) => Set.mem_univ _
  have same := sameObjects_arrayPushAll wf₁ n.isValid (h.arrayElements a)
  cases hp : arrayPushAll r (h.arrayElements a) h₁ with
  | ok u h₂ =>
    have ev₂ := evs.of_ok hp
    have mi₃ : Mints S h₁ (h₂.setFlagB r true) := (same.of_ok hp).resembles.mints.trans
      (mints_setFlagB ev₂.wellFormed (ev₂.isTable (Set.notMem_empty r) ht) true)
    exact ends_bind (ends_set (Q := fun _ h' => Mints S h h' ∧ h'.IsRecord r)
      ⟨mi.trans mi₃, mi₃.record hrec⟩) fun _ _ h₃ => ends_pure h₃
  | error e h₂ =>
    have ev₂ := evs.of_error hp
    have ht₂ := ev₂.isTable (Set.notMem_empty r) ht
    have ev₃ : Evolves ∅ Set.univ h₂ (h₂.arrayClear r) := evolves_arrayClear ev₂.wellFormed ht₂
    have mi₃ : Mints S h (h₂.arrayClear r) := (mi.trans (same.of_error hp).resembles.mints).trans
      (mints_arrayClear ev₂.wellFormed ht₂)
    exact ends_bind (ends_set (Q := fun _ h' => Mints S h h')
      (mi₃.invalidate ev₃.wellFormed n.free)) fun _ _ mi₄ => ends_throw mi₄

/-! ### Collections -/

theorem value_of_collect (layout : h.Layout) {roots : List Ref}
    (hv : ((h.collect roots).2.value r).captured? = some a) :
    (h.collect roots).2.isValid r = true ∧ (h.value r).captured? = some a := by
  obtain ⟨c, hc, -⟩ := exists_closure_of_captured? hv
  have hvalid := (kind_of_value hc (by simp)).1
  rw [value_collect layout hvalid] at hv
  exact ⟨hvalid, hv⟩

/-- No closure captures anything because of a collection. -/
theorem captures_of_collect (layout : h.Layout) {roots : List Ref}
    (hc : (h.collect roots).2.Captures a) : h.Captures a := by
  obtain ⟨r, hr⟩ := hc
  exact ⟨r, (value_of_collect layout hr).2⟩

/-- A closure that is left has its record. -/
theorem isValid_of_captured (layout : h.Layout) {roots : List Ref} (ha : h.isValid a = true)
    (hc : (h.value r).captured? = some a) (hv : (h.collect roots).2.isValid r = true) :
    (h.collect roots).2.isValid a = true := by
  obtain ⟨c, hr, hcap⟩ := exists_closure_of_captured? hc
  obtain ⟨-, r₀, hv₀, root, path⟩ := (isValid_collect_iff layout).1 hv
  exact (isValid_collect_iff layout).2 ⟨ha, r₀, hv₀, root, path.tail (.captured hr hcap)⟩

theorem isRecord_collect (wf : h.WellFormed) {roots : List Ref} (ha : h.IsRecord a)
    (hv : (h.collect roots).2.isValid a = true) : (h.collect roots).2.IsRecord a :=
  ⟨hv, ((unaltered_collect wf hv).isArray ha.isTable).trans ha.2⟩

/-- Collections leave sealed heaps. -/
theorem sealed_collect (wf : h.WellFormed) (hs : h.Sealed) (roots : List Ref) :
    (h.collect roots).2.Sealed := by
  rintro a ⟨r, hr⟩
  obtain ⟨hv, hr'⟩ := value_of_collect wf.layout hr
  have ha := hs a ⟨r, hr'⟩
  exact isRecord_collect wf ha (isValid_of_captured wf.layout ha.1 hr' hv)

end Heap

end SwarmVm
