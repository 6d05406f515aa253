import SwarmVm.Machine.Neighbors
import SwarmVm.Proofs.Heap.Room
import SwarmVm.Proofs.Machine.Registration

/-!
# How much room neighbor functions need

The functions `kin` and `nonkin` make a table with a fixed number of functions, and then enter
robots. What they ask of the heap can be counted beforehand: so much for the functions, and for each
robot of the view so much at most.

## Main definitions

* `Machine.room` — the room that is left
* `Machine.methodCost`, `Machine.robotCost` — the bytes for a function, and for a robot

## Main results

* `Machine.spends_methodTable` — a table of functions
* `Machine.spends_keepKinship` — robots that are entered
-/

namespace SwarmVm

namespace Machine

open Heap (Arbitrary reliance_arbitrary objectSize segmentSize tableCost)

variable {F α β : Type} {m m' : Machine F} {n : Nat} {v : Value} {r t : Ref}

/-- The room that is left in the heap. -/
def room (m : Machine F) : Nat := m.heap.freeBytes

/-! ### Objects -/

theorem spends_onHeap {x : HeapM α} (hx : Spends Heap.freeBytes n x m.heap) :
    Spends room n (onHeap x) m := by
  refine (ends_onHeap hx).imp ?_ ?_
  · rintro _ _ ⟨h, hle, rfl⟩
    exact hle
  · rintro _ _ ⟨_, _, hlt, -⟩
    exact hlt

theorem spends_alloc (hv : ∀ tv, v ≠ .table tv) : Spends room objectSize (alloc v) m := by
  cases v with
  | nil => exact Spends.mono (.get_bind (.pure m.nil)) (Nat.zero_le _)
  | table tv => exact absurd rfl (hv tv)
  | _ => exact spends_onHeap (Heap.spends_allocValue m.heap _)

theorem spends_tableSet (m : Machine F) (t key r : Ref) :
    Spends room segmentSize (tableSet t key r) m :=
  (Spends.modify rfl).free_bind fun _ m' _ => spends_onHeap (Heap.spends_tableSet m'.heap t key r)

/-- An entry with a new key. -/
def entryCost : Nat := objectSize + segmentSize

theorem spends_setField (m : Machine F) (t : Ref) (name : NameId) (r : Ref) :
    Spends room entryCost (setField t name r) m :=
  (spends_alloc (by simp)).bind fun key m' _ => spends_tableSet m' t key r

/-! ### Functions -/

/-- An activation record with a table fits in one segment. -/
theorem spends_selfRecord (hm : m.Sound) (self : Ref) :
    Spends room tableCost (selfRecord self) m := by
  refine (spends_onHeap (Heap.spends_arrayNew m.heap)).bind_free fun record m₁ hs => ?_
  obtain ⟨h, packed, rfl⟩ := (ends_onHeap_of (Heap.packed_arrayNew hm.wellFormed)).of_ok hs
  have push : Spends room 0 (arrayPush record self) { m with heap := h } := by
    refine (Spends.modify rfl).free_bind fun _ m₂ hs₂ => ?_
    cases hs₂
    exact spends_onHeap (Heap.spends_arrayPush_nil packed self)
  exact push.bind_free fun _ _ _ => .pure record

/-- The bytes for a function of a table: two closures, an activation record and an entry. -/
def methodCost : Nat := objectSize + (tableCost + objectSize + entryCost)

theorem spends_bindClosure (hm : m.Sound) {c : Closure} (hr : m.value r = .closure c)
    (unbound : c.captured = none) :
    Spends room (tableCost + objectSize) (bindClosure t r) m := by
  refine .get_bind ?_
  rw [hr]
  simp only [Value.asClosure?, unbound]
  exact (spends_selfRecord hm t).bind fun _ _ _ => spends_alloc (by simp)

theorem spends_addMethods (hm : m.Sound) (methods : List (Builtin × Primitive)) :
    Spends room (methods.length * methodCost) (addMethods t methods) m := by
  induction methods generalizing m with
  | nil => exact (Spends.pure ()).mono (Nat.zero_le _)
  | cons method rest ih =>
    have cost : (method :: rest).length * methodCost
        = objectSize + (tableCost + objectSize + (entryCost + rest.length * methodCost)) := by
      rw [List.length_cons, Nat.succ_mul, methodCost]
      omega
    rw [cost]
    refine (spends_alloc (by simp)).bind fun function m₁ hs₁ => ?_
    obtain ⟨ex, hfunction⟩ := (ends_alloc hm.wellFormed (by simp) (by simp)).of_ok hs₁
    have hm₁ := hm.expands ex
    refine (spends_bindClosure hm₁ hfunction rfl).bind fun r m₂ hs₂ => ?_
    have hm₂ := ((yields_bindClosure reliance_arbitrary hm₁.reliable hm₁.tidy
      hm₁.tidy).of_ok hs₂).1.reliable.sound
    refine (spends_setField m₂ t method.1.nameId r).bind fun _ m₃ hs₃ => ?_
    have hm₃ := ((yields_setField reliance_arbitrary hm₂.reliable hm₂.tidy
      hm₂.tidy).of_ok hs₃).1.reliable.sound
    exact ih hm₃

/-- **A table of functions.** -/
theorem spends_methodTable (hm : m.Sound) (methods : List (Builtin × Primitive)) :
    Spends room (tableCost + methods.length * methodCost) (methodTable methods) m := by
  refine (spends_onHeap (Heap.spends_tableNew m.heap)).bind fun t m₁ hs => ?_
  have hm₁ := ((yields_tableNew reliance_arbitrary hm.reliable).of_ok hs).1.reliable.sound
  exact (spends_addMethods hm₁ methods).bind_free fun _ _ _ => .pure t

/-! ### Robots -/

/-- The bytes for a robot: a table with three numbers, and an entry. -/
def robotCost : Nat := tableCost + 3 * (objectSize + entryCost) + entryCost

theorem spends_setNumber (m : Machine F) (t : Ref) (name : Builtin) (k : Nat) :
    Spends room (objectSize + entryCost) (setNumber t name k) m :=
  (spends_alloc (by simp)).bind fun r m' _ => spends_setField m' t name.nameId r

theorem spends_sightingTable (m : Machine F) (s : Sighting) :
    Spends room (tableCost + 3 * (objectSize + entryCost)) (sightingTable s) m := by
  have cost : 3 * (objectSize + entryCost)
      = objectSize + entryCost + (objectSize + entryCost + (objectSize + entryCost)) := by omega
  rw [cost]
  exact (spends_onHeap (Heap.spends_tableNew m.heap)).bind fun t _ _ =>
    (spends_setNumber _ t .distance _).bind fun _ _ _ =>
      (spends_setNumber _ t .azimuth _).bind fun _ _ _ =>
        (spends_setNumber _ t .elevation _).bind_free fun _ _ _ => .pure t

theorem spends_viewValue (m : Machine F) (robot : RobotId) (stored : Option Ref) :
    Spends room (tableCost + 3 * (objectSize + entryCost)) (viewValue robot stored) m := by
  cases stored with
  | some r => exact (Spends.pure r).mono (Nat.zero_le _)
  | none =>
    refine .get_bind ?_
    cases m.sensors.get? robot with
    | some s => exact spends_sightingTable m s
    | none => exact Spends.mono (.get_bind (.pure m.nil)) (Nat.zero_le _)

/-- **Robots that are entered** take so much at most, whatever is stored for them. -/
theorem spends_keepKinship (m : Machine F) (kin : Bool) (t : Ref)
    (entries : List (RobotId × Option Ref)) :
    Spends room (entries.length * robotCost) (keepKinship kin t entries) m := by
  induction entries generalizing m with
  | nil => exact (Spends.pure ()).mono (Nat.zero_le _)
  | cons entry rest ih =>
    have cost : (entry :: rest).length * robotCost
        = tableCost + 3 * (objectSize + entryCost) + (entryCost + rest.length * robotCost) := by
      rw [List.length_cons, Nat.succ_mul, robotCost]
      omega
    refine .get_bind ?_
    by_cases hkin : m.membership.isKin entry.1 == kin
    · rw [if_pos hkin, cost]
      refine (spends_viewValue m entry.1 entry.2).bind fun r m₁ _ => ?_
      refine Spends.bind ?_ fun _ m₂ _ => ih m₂
      exact (spends_alloc (by simp)).bind fun key m₂ _ => spends_tableSet m₂ t key r
    · rw [if_neg hkin]
      exact (ih m).mono (Nat.mul_le_mul_right robotCost (Nat.le_succ rest.length))

end Machine

end SwarmVm
