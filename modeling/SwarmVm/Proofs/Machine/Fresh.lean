import SwarmVm.Machine.Boot
import SwarmVm.Proofs.Heap.Invariant
import SwarmVm.Proofs.Machine.Instructions

/-!
# New machines

The objects that a machine has from the start are made before there is a machine, and binding the
globals is work like that of a script. So a new machine meets what the other modules ask for: its
heap is well formed and tidy, and everything that it refers to is there.

## Main definitions

* `Heap.Supports` — what can be reached from some objects is there
* `Heap.laidOut` — a heap that is written down

## Main results

* `Machine.ends_coreObjects` — the objects of a new machine
* `Machine.reliable_make` — a new machine
-/

namespace SwarmVm

/-! ### The objects -/

namespace Heap

variable {h h' : Heap} {r : Ref} {l : List Ref}

/-- The bytes of an object with the given value. -/
def objectBytes (v : Value) (permanent : Bool) : List UInt8 :=
  let packed := v.pack
  [Header.toByte { packed.header with valid := true, permanent }, Word.low packed.word,
    Word.high packed.word, Word.low packed.aux, Word.high packed.aux]

/-- The bytes of a segment that has the given objects in its first slots and no successor. -/
def segmentBytes (elements : List Ref) : List UInt8 :=
  let slots := elements.map (fun r => UInt16.ofNat (elementRange + r.toNat))
    ++ List.replicate (slotsPerSegment - elements.length) 0
  let link : Link := { valid := true, next := noNext }
  (slots ++ [link.toWord]).flatMap fun w => [Word.low w, Word.high w]

/-- A heap that is written down: its objects, with whether they are permanent, its free bytes, and
its segments from left to right. -/
def laidOut (objects : List (Value × Bool)) (free : Nat) (segments : List (List Ref)) : Heap where
  bytes := ⟨objects.flatMap (fun o => objectBytes o.1 o.2) ++ List.replicate free 0
    ++ segments.flatMap segmentBytes⟩
  objectEnd := objects.length * objectSize
  segmentStart := objects.length * objectSize + free

/-- Two heaps are the same, one byte after the other. -/
def SameBytes (h h' : Heap) : Prop :=
  h.bytes.toList = h'.bytes.toList ∧ h.objectEnd = h'.objectEnd ∧ h.segmentStart = h'.segmentStart

instance (h h' : Heap) : Decidable (h.SameBytes h') := inferInstanceAs (Decidable (_ ∧ _))

theorem SameBytes.eq (same : h.SameBytes h') : h = h' := by
  obtain ⟨⟨bytes⟩, objectEnd, segmentStart⟩ := h
  obtain ⟨rfl, rfl, rfl⟩ := same
  rfl

/-- The heap is as it should be, and everything that can be reached from the given objects is
there. -/
structure Supports (h : Heap) (l : List Ref) : Prop where
  /-- The heap is well formed. -/
  wellFormed : h.WellFormed
  /-- Free slots are tidy. -/
  tidy : h.Tidy
  /-- The objects are whole. -/
  whole : ∀ r ∈ l, h.Whole r

theorem Supports.evolves (hl : h.Supports l) (ev : Evolves ∅ {e | h.Whole e} h h') :
    h'.Supports l :=
  ⟨ev.wellFormed, ev.tidy hl.tidy, fun r hr => whole_of_evolves ev (hl.whole r hr)⟩

theorem Supports.newObject (hl : h.Supports l) (n : NewObject {e | h.Whole e} h r h') :
    h'.Supports (r :: l) := by
  have hl' := hl.evolves n.evolves
  refine ⟨hl'.wellFormed, hl'.tidy, fun r' hr' => ?_⟩
  rcases List.mem_cons.1 hr' with rfl | hr'
  · exact whole_of_newObject n
  · exact hl'.whole r' hr'

theorem Supports.setPermanent (hl : h.Supports l) (r : Ref) (permanent : Bool) :
    (h.setPermanent r permanent).Supports l := by
  have ev : Evolves {r} ∅ h _ := evolves_setPermanent hl.wellFormed r permanent
  refine ⟨ev.wellFormed, ev.tidy hl.tidy, fun r' hr' => ?_⟩
  refine whole_of_closed (V := {e | h.Whole e}) (fun e he => ?_) (fun e he e' he' => ?_)
    (hl.whole r' hr')
  · rw [(value_setPermanent hl.wellFormed.layout r e permanent).1]
    exact Whole.isValid he
  · exact Whole.of_pointsTo he (pointsTo_setPermanent hl.wellFormed he')

end Heap

namespace Machine

open Heap (Reliance Supports Whole)

variable {F : Type} {m : Machine F} {P : Heap → Ref → Prop}

theorem ends_keep {h : Heap} {l : List Ref} {r : Ref} {E : OutOfMemory → Heap → Prop}
    (hl : h.Supports l) : Ends (keep r) h (fun r' h' => r' = r ∧ h'.Supports l) E :=
  ends_bind (ends_modify (Q := fun _ h' => h'.Supports l) (hl.setPermanent r true))
    fun _ _ hl' => ends_pure ⟨rfl, hl'⟩

/-- The four objects are made one after the other, each with those before it in place. -/
theorem ends_coreObjects {size : Nat} (accepted : Heap.refusal? size = none) :
    Ends coreObjects (Heap.make size)
      (fun p h => h.Supports [p.2.2.2, p.2.2.1, p.2.1, p.1]) fun _ _ => True := by
  obtain ⟨wf, tidy⟩ := Heap.wellFormed_make accepted
  have h₀ : (Heap.make size).Supports [] := ⟨wf, tidy, fun _ hr => absurd hr List.not_mem_nil⟩
  have table : ∀ {h : Heap} {l : List Ref}, h.Supports l →
      Ends Heap.tableNew h (fun r h' => h'.Supports (r :: l)) fun _ _ => True := by
    intro h l hl
    exact (Heap.newObject_alloc hl.wellFormed .table).imp (fun _ _ => hl.newObject)
      fun _ _ _ => trivial
  refine ends_bind ((Heap.newObject_allocValue h₀.wellFormed (by simp) (by simp)).imp
    (fun _ _ n => h₀.newObject n.1) fun _ _ _ => trivial) fun nil h₁ hl₁ => ?_
  refine ends_bind (ends_keep hl₁) fun _ h₂ h => ?_
  obtain ⟨rfl, hl₂⟩ := h
  refine ends_bind ((Heap.newObject_arrayNew hl₂.wellFormed).imp
    (fun _ _ n => And.intro (hl₂.newObject n.1) n.2) fun _ _ _ => trivial) fun record h₃ h => ?_
  obtain ⟨hl₃, htable⟩ := h
  refine ends_bind ((Heap.evolves_arrayPush hl₃.wellFormed (fun _ => htable.1) ?_).imp
    (fun _ _ ev => hl₃.evolves ev) fun _ _ _ => trivial) fun _ h₄ hl₄ => ?_
  · exact Heap.reliance_whole.slot hl₃.wellFormed (hl₃.whole _ (by simp))
  refine ends_bind (ends_keep hl₄) fun _ h₅ h => ?_
  obtain ⟨rfl, hl₅⟩ := h
  refine ends_bind (table hl₅) fun globals h₆ hl₆ => ends_bind (ends_keep hl₆) fun _ h₇ h => ?_
  obtain ⟨rfl, hl₇⟩ := h
  refine ends_bind (table hl₇) fun listeners h₈ hl₈ => ends_bind (ends_keep hl₈) fun _ h₉ h => ?_
  obtain ⟨rfl, hl₉⟩ := h
  exact ends_pure hl₉

/-- Nil, the record that holds nil, and the two tables, -/
def coreValues : List (Value × Bool) :=
  [(.nil, true), (.table ⟨0, true, false⟩, true), (.table ⟨1, false, false⟩, true),
    (.table ⟨2, false, false⟩, true)]

/-- and the segments of the tables and of the record. -/
def coreSegments : List (List Ref) := [[], [], [0]]

/-- The four objects in a heap with room. A run that starts from the heap that is written down does
not make them again. -/
theorem coreObjects_laidOut {size free : Nat}
    (run : answersWith coreObjects (Heap.make size) (fun p h => decide (p = (0, 1, 2, 3)
      ∧ h.SameBytes (.laidOut coreValues free coreSegments))) = true) :
    coreObjects (Heap.make size) = .ok (0, 1, 2, 3) (.laidOut coreValues free coreSegments) := by
  obtain ⟨p, h, hs, hp⟩ := exists_of_answersWith run
  obtain ⟨rfl, same⟩ := of_decide_eq_true hp
  rw [hs, same.eq]

/-- The objects of a machine with a small heap. -/
def smallHeap : Heap := Heap.after coreObjects (Heap.make 192)

theorem coreObjects_make : coreObjects (Heap.make 192)
    = .ok (0, 1, 2, 3) (.laidOut coreValues 106 coreSegments) :=
  coreObjects_laidOut (by decide +kernel)

theorem smallHeap_eq : smallHeap = .laidOut coreValues 106 coreSegments := by
  rw [smallHeap, Heap.after, coreObjects_make]

theorem coreObjects_small : coreObjects (Heap.make 192) = .ok (0, 1, 2, 3) smallHeap := by
  rw [smallHeap_eq, coreObjects_make]

/-! ### The machine -/

theorem inbox_toList_make {α : Type} (n : Nat) : (Ring.make n : Ring α).toList = [] := by
  have hsize : (Ring.make n : Ring α).size = 0 := by
    simp [Ring.size, Ring.make]
  rw [Ring.toList, hsize]
  rfl

theorem reliable_blank {s : Settings} {nil record globals listeners : Ref} {heap : Heap}
    (wf : heap.WellFormed) (hP : ∀ r ∈ [listeners, globals, record, nil], P heap r) :
    (blank s nil record globals listeners heap : Machine F).Reliable P := by
  refine ⟨wf, Nat.zero_le _, Nat.zero_le _, fun r hr => absurd hr List.not_mem_nil, fun r hr => ?_⟩
  refine hP r ?_
  simp only [registers, ambient, stored, blank, inbox_toList_make] at hr
  simp at hr ⊢
  tauto

theorem yields_setGlobal (rel : Reliance P) (hm : m.Reliable P) {name : NameId} {r : Ref}
    (hr : P m.heap r) : Yields P (setGlobal name r) m fun _ _ => True :=
  yields_get_bind (yields_setField rel hm hm.globals hr)

theorem yields_bindGlobals (rel : Reliance P) (hm : m.Reliable P) :
    Yields P bindGlobals m fun _ _ => True := by
  refine yields_get_bind ((yields_allocScalar rel hm (by simp)).bind fun _ m₁ st₁ hr₁ => ?_)
  refine (yields_setGlobal rel st₁.reliable hr₁).bind fun _ m₂ st₂ _ => ?_
  refine (yields_alloc rel st₂.reliable fun c e hc he => ?_).bind fun _ m₃ st₃ hr₃ => ?_
  · rw [← Value.closure.inj hc] at he
    cases he
  refine (yields_setGlobal rel st₃.reliable hr₃).bind fun _ m₄ st₄ _ => ?_
  refine (yields_methodTable rel st₄.reliable).bind fun _ m₅ st₅ hr₅ => ?_
  refine (yields_setGlobal rel st₅.reliable hr₅).bind fun _ m₆ st₆ _ => ?_
  refine (yields_methodTable rel st₆.reliable).bind fun _ m₇ st₇ hr₇ => ?_
  refine (yields_setGlobal rel st₇.reliable hr₇).bind fun _ m₈ st₈ _ => ?_
  exact (yields_methodTable rel st₈.reliable).bind fun _ m₉ st₉ hr₉ =>
    yields_setGlobal rel st₉.reliable hr₉

/-- A new machine is a blank one whose globals are bound. -/
theorem exists_bindGlobals_of_make {s : Settings} (hm : make s = .ok m) :
    ∃ nil record globals listeners heap, Heap.refusal? s.heapSize = none
      ∧ coreObjects (Heap.make s.heapSize) = .ok (nil, record, globals, listeners) heap
      ∧ bindGlobals (blank s nil record globals listeners heap) = .ok () m := by
  rw [make] at hm
  cases hs : s.refusal? with
  | some reason => rw [hs] at hm; cases hm
  | none =>
    have accepted : Heap.refusal? s.heapSize = none := by
      rw [Settings.refusal?] at hs
      split at hs
      · cases hs
      · assumption
    simp only [hs] at hm
    cases hc : coreObjects (Heap.make s.heapSize) with
    | error e h => rw [hc] at hm; cases hm
    | ok p heap =>
      obtain ⟨nil, record, globals, listeners⟩ := p
      refine ⟨nil, record, globals, listeners, heap, accepted, rfl, ?_⟩
      simp only [hc] at hm
      split at hm
      · next hx =>
        cases hm
        exact hx
      · cases hm
      · cases hm

/-- A new machine comes from a blank one by work inside a call. -/
theorem exists_steady_of_make {s : Settings} (hm : make s = .ok m) :
    ∃ nil record globals listeners heap, heap.Supports [listeners, globals, record, nil]
      ∧ ∀ {P}, Reliance P → (blank s nil record globals listeners heap : Machine F).Reliable P →
        Steady P (blank s nil record globals listeners heap) m := by
  obtain ⟨nil, record, globals, listeners, heap, accepted, hc, hx⟩ := exists_bindGlobals_of_make hm
  refine ⟨nil, record, globals, listeners, heap, (ends_coreObjects accepted).of_ok hc, ?_⟩
  intro P rel hb
  exact ((yields_bindGlobals rel hb).of_ok hx).1

/-- The heap of a new machine is well formed and tidy, its stack is within its bounds, and
everything that can be reached from the objects it refers to is there. -/
theorem reliable_make {s : Settings} (hm : make s = .ok m) : m.Reliable Whole ∧ m.heap.Tidy := by
  obtain ⟨nil, record, globals, listeners, heap, hl, steady⟩ := exists_steady_of_make hm
  have tidy := steady Heap.reliance_arbitrary (reliable_blank hl.wellFormed fun _ _ => hl.tidy)
  exact ⟨(steady Heap.reliance_whole (reliable_blank hl.wellFormed hl.whole)).reliable,
    tidy.reliable.nil⟩

end Machine

end SwarmVm
