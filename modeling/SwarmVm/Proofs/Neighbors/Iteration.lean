import SwarmVm.Proofs.Machine.Matching
import SwarmVm.Proofs.Machine.Watched

/-!
# The values of a derived table

A function that goes through a derived table finds all its entries first, and then calls back for
one after the other. Between the two it holds the values by their indices only. What the callback
does to the table does not change what has been found. But a callback that erases an entry may take
the last reference to a value, and the next collection takes the object.

So a value that was found is passed as it was found, as long as no collection on the way takes it.
Otherwise the callback is given whatever has come to be in its place, or nothing at all.

## Main results

* `Loop.passes_value` — values are passed as they were found, unless they are taken
* `Loop.passes_nothing` — a value that was taken
-/

namespace SwarmVm

namespace Machine

variable {F : Type} [HostFunctions F]

/-- Loops whose callbacks are stopped more often do the same or stop. -/
theorem refines_approach {collect collect' : Action F Unit} (hc : Refines collect collect')
    (hcollect : Confined collect) (n : Nat) (callback : Ref) (l : Loop)
    (before : List (RobotId × Option Ref)) (robot : RobotId) (stored : Option Ref) :
    Refines (l.approach (callWith collect n) callback before robot stored)
      (l.approach (callWith collect' n) callback before robot stored) :=
  refines_run_bind (refines_callWith hc hcollect n)
    (fun closure args => (upholds_callWith hcollect.upholds_true n closure args).confined)
    l callback before _

/-! ### Collections that can be computed -/

/-- A collection that looks at a few objects only, and stops if these are not all. -/
def collectWithin : Action F Unit := fun m =>
  match m.heap.markWithin? 64 (Array.replicate m.heap.objectSlots false)
      (m.stack.slots.toList ++ m.ambient ++ m.heap.permanents) with
  | some marks =>
    if m.stack.hasRoom m.ambient.length then .ok () (m.swept marks) else .error .outOfFuel m
  | none => .error .outOfFuel m

omit [HostFunctions F] in
theorem collectWithin_cases (m : Machine F) :
    collectWithin m = collectGarbage m ∨ collectWithin m = .error .outOfFuel m := by
  rw [collectWithin]
  split
  · next marks hmarks =>
    split
    · next hroom => exact .inl (collectGarbage_of_marks ⟨hroom, hmarks⟩).symm
    · exact .inr rfl
  · exact .inr rfl

omit [HostFunctions F] in
theorem refines_collectWithin : Refines (collectWithin : Action F Unit) collectGarbage :=
  fun m _ => (collectWithin_cases m).imp_right fun h => ⟨m, h⟩

omit [HostFunctions F] in
theorem confined_collectWithin : Confined (collectWithin : Action F Unit) := by
  intro m hm
  rcases collectWithin_cases m with h | h
  · rw [ends_iff, h]
    exact ends_iff.1 (confined_collectGarbage m hm)
  · rw [ends_iff, h]
    exact .refl hm

end Machine

namespace Loop

open Machine

variable {F : Type} {m m' : Machine F} {l : Loop} {t r callback : Ref} {robot : RobotId}
  {before behind : List (RobotId × Option Ref)} {args : List Ref} {n : Nat}

/-- **Values are passed as they were found.** In the machine `m` the entries of the derived table
`t` are found, and one of them has the value `r`. A loop calls back for those before it. If no
collection on the way takes `r`, the loop goes on to call the callback with `r`, and `r` is still
the object that was found: it is there, and it has the value that it had, unless it is a table,
whose entries may be others. -/
theorem passes_value [HostFunctions F] (hm : m.Standard)
    (hfound : m.viewEntries (.derived t) = before ++ (robot, some r) :: behind)
    (hr : m.heap.isValid r = true)
    (hw : l.approach (callWith (watch collectGarbage r) n) callback before robot (some r) m
      = .ok args m') :
    args[1]? = some r ∧ m'.heap.Denotes r (m.value r)
      ∧ l.run (callClosure n) callback (m.viewEntries (.derived t)) m = (do
        let answer ← callClosure n callback args
        l.accept robot answer
        l.run (callClosure n) callback behind) m' := by
  have watched : ∀ closure args, Upholds (fun m' => m'.heap.Denotes r (m.value r))
      (callWith (watch collectGarbage r) n closure args : Action F Ref) :=
    upholds_callWith upholds_watch n
  have hargs : Ends (l.approach (callWith (watch collectGarbage r) n) callback before robot
      (some r)) m (fun args _ => args[1]? = some r) fun _ _ => True :=
    ends_bind (Q := fun _ _ => True) ⟨fun _ => trivial, fun _ => trivial⟩
      fun _ m₁ _ => l.ends_offer robot r m₁
  have denotes := (Upholds.bind (upholds_run watched l callback before)
    fun _ => upholds_offer l robot (some r)) m hm (Heap.denotes_value hr)
  have same := (refines_approach (refines_watch collectGarbage r)
    (confined_collectGarbage.watch r) n callback l before robot (some r) m hm).of_ok hw
  rw [callWith_collectGarbage] at same
  refine ⟨hargs.of_ok hw, (denotes.of_ok hw).2, ?_⟩
  rw [hfound, run_eq_approach]
  have hbind : ∀ f : List Ref → Action F Unit,
      (l.approach (callClosure n) callback before robot (some r) >>= f) m
        = EStateM.bind (l.approach (callClosure n) callback before robot (some r)) f m :=
    fun _ => rfl
  rw [hbind, EStateM.bind, same]

/-! ### A small machine with a derived table -/

/-- The heap of the machine: nil, the record that holds nil, a table with itself under 2 and the
number 103 under 3, and a function. -/
@[irreducible] def derivedHeap : Heap :=
  [.allocValue .nil, .makePermanent 0, .arrayNew, .arrayPush 1 0, .makePermanent 1, .tableNew,
    .allocValue (.int 2), .allocValue (.int 3), .allocValue (.int 103), .tableSet 2 3 2,
    .tableSet 2 4 5, .allocValue (.closure (.ofCode 0))].foldl Heap.Request.perform (Heap.make 131)

theorem derivedHeap_eq : derivedHeap = .laidOut
    [(.nil, true), (.table ⟨0, true, false⟩, true), (.table ⟨1, false, false⟩, false),
      (.int 2, false), (.int 3, false), (.int 103, false), (.closure (.ofCode 0), false)] 52
    [[3, 2, 4, 5], [0]] := by
  unfold derivedHeap
  exact Heap.SameBytes.eq (by decide +kernel)

/-- A function that erases a key of the table that it is given. -/
def erasing (key : UInt8) : List UInt8 := [Opcode.loadLocal.byte, 2, 0, Opcode.pushInt.byte, key, 0,
  Opcode.pushNil.byte, Opcode.putField.byte, Opcode.ret0.byte]

/-- A machine with the given code, and with the table and the function on its stack. -/
def iterating (code : List UInt8) : Machine Empty :=
  { blank { heapSize := 131, stackSize := 20, inboxSlots := 2, outboxSlots := 2 } 0 1 2 2
      derivedHeap with
    code := code.toArray, stack := { slots := #[2, 6], capacity := 20 } }

theorem standard_iterating (code : List UInt8) : (iterating code).Standard := by
  have wf : derivedHeap.WellFormed ∧ derivedHeap.Tidy := by
    unfold derivedHeap
    exact (Heap.Built.foldl (.make (by decide)) (by simp [Heap.Request.Allowed])).wellFormed
  exact ⟨⟨wf.1, wf.2, Nat.zero_le 2, show 2 ≤ 20 by omega⟩, show 20 ≤ 65535 by omega, rfl⟩

theorem viewEntries_iterating (code : List UInt8) :
    (iterating code).viewEntries (.derived 2) = [(2, some 2), (3, some 5)]
      ∧ (iterating code).heap.isValid 5 = true ∧ (iterating code).value 5 = .int 103 := by
  have h : (derivedHeap.tableEntries 2).filterMap (fun e =>
      (derivedHeap.value e.1).asInt?.map fun i => (i.toUInt16, some e.2))
        = [(2, some 2), (3, some 5)]
      ∧ derivedHeap.isValid 5 = true ∧ derivedHeap.value 5 = .int 103 := by
    rw [derivedHeap_eq]
    decide +kernel
  exact h

/-- The first call erases the entry of its own robot, and the value of the other one is passed. -/
theorem passes_value_iterating : ∃ m', (iterating (erasing 2)).Standard
    ∧ each.approach (callWith (watch collectGarbage 5) 8) 6 [(2, some 2)] 3 (some 5)
      (iterating (erasing 2)) = .ok [3, 5] m' ∧ m'.heap.Denotes 5 (.int 103) := by
  have hm := standard_iterating (erasing 2)
  obtain ⟨hfound, hv, hvalue⟩ := viewEntries_iterating (erasing 2)
  have hrun : answersWith (each.approach (callWith (watch collectWithin 5) 8) 6 [(2, some 2)] 3
      (some 5)) (iterating (erasing 2)) (fun args _ => args = [3, 5]) = true := by
    rw [iterating, derivedHeap_eq]
    decide +kernel
  obtain ⟨args, m', hs, ha⟩ := exists_of_answersWith hrun
  obtain rfl := of_decide_eq_true ha
  have hw := (refines_approach (refines_collectWithin.watch 5) (confined_collectWithin.watch 5) 8 6
    each [(2, some 2)] 3 (some 5) _ hm).of_ok hs
  have passed :=
    (passes_value hm (show _ = [(2, some 2)] ++ (3, some 5) :: [] from hfound) hv hw).2.1
  rw [hvalue] at passed
  exact ⟨m', hm, hw, passed⟩

/-- **A value that was taken.** The first call erases the entry of the other robot, whose value is
then taken by a collection. The loop goes on with its index, and there is no object any more. -/
theorem passes_nothing : ∃ m', (iterating (erasing 3)).viewEntries (.derived 2)
      = [(2, some 2)] ++ (3, some 5) :: []
    ∧ (iterating (erasing 3)).value 5 = .int 103
    ∧ each.approach (callClosure 8) 6 [(2, some 2)] 3 (some 5) (iterating (erasing 3))
      = .ok [4, 5] m' ∧ m'.heap.isValid 5 = false := by
  have hm := standard_iterating (erasing 3)
  obtain ⟨hfound, hv, hvalue⟩ := viewEntries_iterating (erasing 3)
  have hrun : answersWith (each.approach (callWith collectWithin 8) 6 [(2, some 2)] 3 (some 5))
      (iterating (erasing 3)) (fun args m' => args = [4, 5] ∧ m'.heap.isValid 5 = false)
      = true := by
    rw [iterating, derivedHeap_eq]
    decide +kernel
  obtain ⟨args, m', hs, ha⟩ := exists_of_answersWith hrun
  obtain ⟨rfl, htaken⟩ := of_decide_eq_true ha
  have happroach := (refines_approach refines_collectWithin confined_collectWithin 8 6 each
    [(2, some 2)] 3 (some 5) _ hm).of_ok hs
  rw [callWith_collectGarbage] at happroach
  exact ⟨m', hfound, hvalue, happroach, htaken⟩

end Loop

end SwarmVm
