import SwarmVm.Proofs.Heap.Containers
import SwarmVm.Proofs.Heap.Collection

/-!
# The structural invariant of the heap

Every heap that the operations of the heap can make is well formed: its edges are in place, the
chain of every table ends and has distinct segments in use, and no two tables share a segment.
Operations that run out of room are no exception, and neither are collections.

A collection keeps the chains of the tables it keeps, link by link; it frees segments, but none that
a surviving table owns. What it does to the objects themselves is in `Collection`.

The invariant also says that free slots hold nothing that looks like an object. Without it an
operation on a table that is not there any more would follow the links of a chain that is not its
own.

## Main definitions

* `Heap.Request` — a call of one of the operations of the heap
* `Heap.Built` — the heaps that can be made with such calls

## Main results

* `Heap.wellFormed_collect`, `Heap.pointsTo_collect_iff` — a collection keeps what it keeps whole
* `Heap.Request.wellFormed_perform` — every call keeps the invariant
* `Heap.structure_of_built` — so it holds of every heap that can be made
-/

namespace SwarmVm

namespace Heap

variable {h : Heap} {r t e : Ref} {s : SegRef} {roots : List Ref}

/-! ### Collections of well-formed heaps -/

theorem kind_collect (layout : h.Layout) (hv : (h.collect roots).2.isValid r = true) :
    (h.collect roots).2.kind r = h.kind r := by
  rw [kind, header_collect layout hv]
  rfl

theorem isTable_of_collect (layout : h.Layout) (ht : (h.collect roots).2.IsTable t) :
    h.IsTable t :=
  ⟨((isValid_collect_iff layout).1 ht.1).1, (kind_collect layout ht.1).symm.trans ht.2⟩

/-- A table that is left has the chain it had. -/
theorem linked_collect (wf : h.WellFormed) (ht : (h.collect roots).2.IsTable t) :
    (h.collect roots).2.Linked ((h.collect roots).2.tableHead t) (h.chain t) := by
  have ht₀ := isTable_of_collect wf.layout ht
  obtain ⟨tv, hv, hhead⟩ := ht₀.value
  have hv' := (value_collect wf.layout ht.1).trans hv
  rw [← head_eq_tableHead hv', hhead]
  refine (wf.linked t ht₀).of_next_eq fun s hs => ?_
  have hs' : (h.collect roots).2.segmentIsValid s = true := by
    refine (segmentIsValid_collect_iff wf.layout).2 ⟨wf.segmentIsValid ht₀ hs, t, tv, ht.1, hv, ?_⟩
    rw [hhead]
    exact (onChain_iff_mem (wf.linked t ht₀)).2 hs
  refine ⟨hs', ?_⟩
  rw [next, link_collect wf.layout hs']
  rfl

theorem chain_collect (wf : h.WellFormed) (ht : (h.collect roots).2.IsTable t) :
    (h.collect roots).2.chain t = h.chain t :=
  (linked_collect wf ht).chain_eq

theorem wellFormed_collect (wf : h.WellFormed) (roots : List Ref) :
    (h.collect roots).2.WellFormed where
  layout := layout_collect wf.layout roots
  linked t ht := by
    rw [chain_collect wf ht]
    exact linked_collect wf ht
  disjoint t t' ht ht' ne := by
    rw [chain_collect wf ht, chain_collect wf ht']
    exact wf.disjoint t t' (isTable_of_collect wf.layout ht) (isTable_of_collect wf.layout ht') ne

/-- An object that is left points at what it pointed at. -/
theorem pointsTo_collect_iff (wf : h.WellFormed) (hv : (h.collect roots).2.isValid r = true) :
    (h.collect roots).2.PointsTo r e ↔ h.PointsTo r e := by
  by_cases hk : h.kind r = .table
  · have ht : (h.collect roots).2.IsTable r := ⟨hv, (kind_collect wf.layout hv).trans hk⟩
    have ht₀ := isTable_of_collect wf.layout ht
    rw [(wellFormed_collect wf roots).pointsTo_iff ht, wf.pointsTo_iff ht₀, chain_collect wf ht]
    refine exists_congr fun s => and_congr_right fun hs => exists_congr fun k =>
      and_congr_right fun hlt => ?_
    rw [element?_collect wf.layout (wf.segment_lt ht₀ hs) hlt]
  · exact pointsTo_congr_of_not_table (value_collect wf.layout hv) hk

theorem header_retract_cases (g : Heap) (r : Ref) :
    g.retract.header r = g.header r ∨ g.retract.header r = Header.free := by
  have hle : g.usedObjects ≤ g.objectSlots := lastUsed_le _ _
  rw [header, objectSlots_retract]
  by_cases hr : r.toNat < g.usedObjects
  · rw [if_pos hr, header, if_pos (by omega)]
    exact .inl rfl
  · rw [if_neg hr]
    exact .inr rfl

/-- What a collection gives back is cleared. -/
theorem tidy_collect (layout : h.Layout) (tidy : h.Tidy) (roots : List Ref) :
    (h.collect roots).2.Tidy := by
  intro r hr
  have sw := swept_sweep layout roots
  rw [show (h.collect roots).2.isValid r = _ from isValid_retract _ r, isValid, sw.header,
    Header.valid_swept, Bool.and_eq_false_iff] at hr
  rw [kind]
  rcases header_retract_cases
    ((h.sweepSegments (h.markSegments (h.mark roots))).sweepObjects (h.mark roots)) r with hh | hh
  · rw [show (h.collect roots).2.header r = _ from hh, sw.header, Header.swept]
    split
    · next hv =>
      rw [if_neg (by rw [hr.resolve_left (by rw [hv]; simp)]; simp)]
      rfl
    · next hv => exact tidy r (Bool.eq_false_iff.2 hv)
  · rw [show (h.collect roots).2.header r = _ from hh]
    rfl

/-! ### Every heap that can be made -/

/-- A call of one of the operations that change a heap. -/
inductive Request where
  /-- Everything is dropped. -/
  | clear
  /-- A new object of a kind. -/
  | alloc (kind : Kind)
  /-- A new object with a value. -/
  | allocValue (v : Value)
  /-- A copy of an object. -/
  | copy (r : Ref)
  /-- A slot is given free. -/
  | invalidate (r : Ref)
  /-- An object becomes permanent. -/
  | makePermanent (r : Ref)
  /-- An object is permanent no more. -/
  | clearPermanent (r : Ref)
  /-- An object gets another value. -/
  | setValue (r : Ref) (v : Value)
  /-- A new table. -/
  | tableNew
  /-- A value is stored under a key, or a key is erased. -/
  | tableSet (t key value : Ref)
  /-- A new array. -/
  | arrayNew
  /-- An element is appended. -/
  | arrayPush (a r : Ref)
  /-- The last element is dropped. -/
  | arrayPop (a : Ref)
  /-- An element is replaced. -/
  | arraySet (a : Ref) (position : Nat) (r : Ref)
  /-- A copy of an array. -/
  | arrayClone (a : Ref)
  /-- Every element is dropped. -/
  | arrayClear (a : Ref)
  /-- A collection. -/
  | collect (roots : List Ref)

/-- The heap that an operation leaves, whether it succeeds or fails. -/
def after {α : Type} (x : HeapM α) (h : Heap) : Heap :=
  match x h with
  | .ok _ h' => h'
  | .error _ h' => h'

namespace Request

/-- The heap after a call. -/
def perform (h : Heap) : Request → Heap
  | clear => h.clear
  | alloc kind => after (Heap.alloc kind) h
  | allocValue v => after (Heap.allocValue v) h
  | copy r => after (Heap.copy r) h
  | invalidate r => h.invalidate r
  | makePermanent r => h.makePermanent r
  | clearPermanent r => h.clearPermanent r
  | setValue r v => h.setValue r v
  | tableNew => after Heap.tableNew h
  | tableSet t key value => after (Heap.tableSet t key value) h
  | arrayNew => after Heap.arrayNew h
  | arrayPush a r => after (Heap.arrayPush a r) h
  | arrayPop a => (h.arrayPop a).2
  | arraySet a position r => (h.arraySet a position r).2
  | arrayClone a => after (Heap.arrayClone a) h
  | arrayClear a => h.arrayClear a
  | collect roots => (h.collect roots).2

/-- What a call takes for granted. A table is made with its first segment, never by writing a table
value; an object that is written to, or cleared as an array, is there. Nothing is asked of the
others: to what is no table or array, they do nothing. -/
def Allowed (h : Heap) : Request → Prop
  | allocValue v => ∀ t, v ≠ .table t
  | setValue r v => h.isValid r = true ∧ ∀ t, v ≠ .table t
  | arrayClear a => h.isValid a = true
  | _ => True

end Request

/-- The heaps that can be made: a new one of an accepted size, and what a call leaves of one. -/
inductive Built : Heap → Prop
  | make {size : Nat} : refusal? size = none → Built (make size)
  | perform {h : Heap} {q : Request} : Built h → q.Allowed h → Built (q.perform h)

theorem layout_make {size : Nat} (accepted : refusal? size = none) : (make size).Layout := by
  have hsize : (make size).size = size := Array.size_replicate
  refine ⟨by rw [hsize]; exact accepted, Nat.zero_le _, hsize.ge, Nat.dvd_zero _, ?_⟩
  rw [hsize]
  exact ⟨0, Nat.sub_self _⟩

theorem not_isValid_make (size : Nat) (r : Ref) :
    (make size).isValid r = false ∧ (make size).kind r = .nil := by
  have hslots : (make size).objectSlots = 0 := Nat.zero_div _
  rw [isValid, kind, header, hslots, if_neg (Nat.not_lt_zero _)]
  exact ⟨rfl, rfl⟩

theorem wellFormed_make {size : Nat} (accepted : refusal? size = none) :
    (make size).WellFormed ∧ (make size).Tidy := by
  have hfree : ∀ t, ¬ (make size).IsTable t := by
    intro t ht
    rw [IsTable, (not_isValid_make size t).1] at ht
    cases ht.1
  exact ⟨⟨layout_make accepted, fun t ht => absurd ht (hfree t), fun t _ ht => absurd ht (hfree t)⟩,
    fun r _ => (not_isValid_make size r).2⟩

theorem Evolves.invariant {X A : Set Ref} {h' : Heap} (ev : Evolves X A h h') (tidy : h.Tidy) :
    h'.WellFormed ∧ h'.Tidy :=
  ⟨ev.wellFormed, ev.tidy tidy⟩

theorem after_of_ends {α : Type} {x : HeapM α} {P : Heap → Prop}
    (hx : Ends x h (fun _ => P) fun _ => P) : P (after x h) := by
  rw [ends_iff] at hx
  rw [after]
  split <;> simp_all

/-- Every call keeps the invariant, whether it succeeds or runs out of room. -/
theorem Request.wellFormed_perform {q : Request} (wf : h.WellFormed) (tidy : h.Tidy)
    (allowed : q.Allowed h) : (q.perform h).WellFormed ∧ (q.perform h).Tidy := by
  have hall : ∀ r : Ref, slotRef r ∈ Set.univ := fun r => Set.mem_univ _
  have htable : ∀ t, h.kind t = .table → h.isValid t = true := by
    intro t ht
    by_contra hv
    rw [tidy t (by simpa using hv)] at ht
    cases ht
  have run : ∀ {α : Type} {x : HeapM α}, Ends x h (fun _ h' => h'.WellFormed ∧ h'.Tidy)
      (fun _ h' => h'.WellFormed ∧ h'.Tidy) → (after x h).WellFormed ∧ (after x h).Tidy := by
    intro α x hx
    exact after_of_ends (P := fun h' => h'.WellFormed ∧ h'.Tidy) hx
  have same : ∀ h', h' = h → h'.WellFormed ∧ h'.Tidy := fun h' he => he ▸ ⟨wf, tidy⟩
  cases q with
  | clear => exact wellFormed_make wf.layout.accepted
  | alloc kind =>
    exact run ((newObject_alloc (A := Set.univ) wf kind).imp (fun _ _ n => n.evolves.invariant tidy)
      fun _ _ ev => ev.invariant tidy)
  | allocValue v =>
    exact run ((newObject_allocValue (A := Set.univ) wf allowed fun _ _ _ _ => Set.mem_univ _).imp
      (fun _ _ n => n.1.evolves.invariant tidy) fun _ => same)
  | copy r =>
    refine run ((evolves_copy (A := Set.univ) wf fun _ _ => Set.mem_univ _).imp (fun _ h' hc => ?_)
      fun _ => same)
    rcases hc with ⟨_, he⟩ | n
    · exact same h' he
    · exact n.evolves.invariant tidy
  | invalidate r => exact (evolves_invalidate (A := ∅) wf r).invariant tidy
  | makePermanent r => exact (evolves_setPermanent (A := ∅) wf r true).invariant tidy
  | clearPermanent r => exact (evolves_setPermanent (A := ∅) wf r false).invariant tidy
  | setValue r v => exact (evolves_setValue (A := ∅) wf allowed.1 allowed.2).invariant tidy
  | tableNew =>
    exact run ((newObject_alloc (A := Set.univ) wf .table).imp
      (fun _ _ n => n.evolves.invariant tidy) fun _ _ ev => ev.invariant tidy)
  | tableSet t key value =>
    exact run ((evolves_tableSet wf (htable t) (hall key) (hall value)).imp
      (fun _ _ ev => ev.invariant tidy) fun _ => same)
  | arrayNew =>
    exact run ((newObject_arrayNew (A := Set.univ) wf).imp (fun _ _ n => n.1.evolves.invariant tidy)
      fun _ _ ev => ev.invariant tidy)
  | arrayPush a r =>
    exact run ((evolves_arrayPush wf (htable a) (hall r)).imp (fun _ _ ev => ev.invariant tidy)
      fun _ => same)
  | arrayPop a => exact (evolves_arrayPop (A := ∅) wf (htable a)).invariant tidy
  | arraySet a position r => exact (evolves_arraySet wf (htable a) position (hall r)).invariant tidy
  | arrayClone a =>
    exact run ((newObject_arrayClone wf fun e _ => hall e).imp
      (fun _ _ n => n.1.evolves.invariant tidy) fun _ _ ev => ev.invariant tidy)
  | arrayClear a => exact (clears_arrayClear (A := ∅) wf allowed).1.invariant tidy
  | collect roots => exact ⟨wellFormed_collect wf roots, tidy_collect wf.layout tidy roots⟩

/-- Calls that take nothing for granted, one after the other. -/
theorem Request.wellFormed_foldl {qs : List Request} (wf : h.WellFormed) (tidy : h.Tidy)
    (allowed : ∀ q ∈ qs, ∀ h, q.Allowed h) :
    (qs.foldl perform h).WellFormed ∧ (qs.foldl perform h).Tidy := by
  induction qs generalizing h with
  | nil => exact ⟨wf, tidy⟩
  | cons q qs ih =>
    obtain ⟨wf₁, tidy₁⟩ := wellFormed_perform wf tidy (allowed q List.mem_cons_self h)
    exact ih wf₁ tidy₁ fun q' hq' => allowed q' (List.mem_cons_of_mem q hq')

theorem Built.foldl {qs : List Request} (hb : Built h) (allowed : ∀ q ∈ qs, ∀ h, q.Allowed h) :
    Built (qs.foldl Request.perform h) := by
  induction qs generalizing h with
  | nil => exact hb
  | cons q qs ih =>
    exact ih (hb.perform (allowed q List.mem_cons_self h))
      fun q' hq' => allowed q' (List.mem_cons_of_mem q hq')

theorem Built.wellFormed (hb : Built h) : h.WellFormed ∧ h.Tidy := by
  induction hb with
  | make accepted => exact wellFormed_make accepted
  | perform _ allowed ih => exact Request.wellFormed_perform ih.1 ih.2 allowed

/-- **The structure of a heap.** Of every heap that can be made, the edges are in place, and the
chain of every table or array consists of distinct segments in use, ends, and shares no segment with
the chain of another. -/
theorem structure_of_built (hb : Built h) :
    h.objectEnd ≤ h.segmentStart ∧ h.segmentStart ≤ h.size ∧ 5 ∣ h.objectEnd
      ∧ 22 ∣ h.size - h.segmentStart
      ∧ (∀ t, h.IsTable t → h.Linked (h.tableHead t) (h.chain t) ∧ (h.chain t).Nodup
        ∧ ∀ s ∈ h.chain t, h.segmentIsValid s = true ∧ h.segmentStart ≤ h.segmentOffset s
          ∧ h.segmentOffset s + 22 ≤ h.size)
      ∧ ∀ t t', h.IsTable t → h.IsTable t' → t ≠ t' → List.Disjoint (h.chain t) (h.chain t') := by
  have wf := hb.wellFormed.1
  have layout := wf.layout
  refine ⟨layout.ordered, layout.inside, layout.objects, layout.segments, fun t ht => ?_,
    wf.disjoint⟩
  refine ⟨wf.linked t ht, (wf.linked t ht).nodup, fun s hs => ⟨wf.segmentIsValid ht hs, ?_⟩⟩
  exact layout.segmentOffset_bounds (wf.segment_lt ht hs)

/-- Two arrays, in a heap that had no room for a third. -/
def twoArrays : Heap :=
  Request.perform (Request.perform (Request.perform (Request.perform (make 64) .arrayNew) .arrayNew)
    .arrayNew) (.arrayPush 1 0)

theorem structure_of_twoArrays : Built twoArrays ∧ twoArrays.IsTable 0 ∧ twoArrays.IsTable 1
    ∧ List.Disjoint (twoArrays.chain 0) (twoArrays.chain 1) := by
  have hb : Built twoArrays :=
    .perform (.perform (.perform (.perform (.make (by decide)) trivial) trivial) trivial) trivial
  have h₀ : twoArrays.IsTable 0 := ⟨by decide +kernel, by decide +kernel⟩
  have h₁ : twoArrays.IsTable 1 := ⟨by decide +kernel, by decide +kernel⟩
  exact ⟨hb, h₀, h₁, (structure_of_built hb).2.2.2.2.2 0 1 h₀ h₁ (by decide)⟩

end Heap

end SwarmVm
