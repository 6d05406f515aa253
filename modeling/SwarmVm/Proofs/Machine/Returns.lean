import SwarmVm.Proofs.Machine.Floors
import SwarmVm.Proofs.Machine.Methods

/-!
# Functions of the machine, from their arguments to their return

A function of the machine looks at its arguments, does its work, pushes a result and returns it.
Looking at arguments changes nothing. A return takes the result off the stack, clears the activation
record of the call, and changes registers of the call besides; the heap is otherwise as it was, and
the result is on top of the stack of the caller.

## Main definitions

* `Machine.OnlyStack` — actions that change nothing but the stack
* `Machine.Gives` — what a function returns
* `Machine.Handed` — what a return leaves
* `Machine.Serving`, `Machine.CalledWith` — machines in a call of a function

## Main results

* `Machine.requireArgs_eq`, `Machine.localAt_eq` — arguments
* `Machine.ret1_eq`, `Machine.ends_ret1` — returns
* `Machine.CalledBy.grows` — a call is left alone by work on the heap
* `Machine.CalledWith.exists_gives` — a return that succeeds
-/

namespace SwarmVm

namespace Machine

variable {F α β : Type} {m m' : Machine F} {c : Site} {r t : Ref} {n : Nat}
  {below l : List Ref}

/-! ### Arguments -/

/-- Where free slots are tidy, an access to a table is not noted. -/
theorem touch_of_tidy (wf : m.heap.WellFormed) (tidy : m.heap.Tidy) (t : Ref) :
    touch t m = .ok () m :=
  touch_eq wf fun hk => tidy.isValid_of_kind (by rw [hk]; decide)

theorem requireArgs_eq (wf : m.heap.WellFormed) (tidy : m.heap.Tidy) (n : Nat) : requireArgs n m
    = if m.argc = n then .ok () m else .error (.fault .localCount) m := by
  have hargs : requireArgs n m = require (m.argc == n) .localCount m := by
    rw [requireArgs, get_bind_apply, bind_of_ok (touch_of_tidy wf tidy _), get_bind_apply]
  rw [hargs]
  split
  · next he =>
    rw [beq_iff_eq.2 he]
    rfl
  · next ne =>
    rw [beq_eq_false_iff_ne.2 ne]
    rfl

theorem localAt_eq (wf : m.heap.WellFormed) (tidy : m.heap.Tidy) (i : UInt16) :
    localAt i m = orFail (m.heap.arrayGet? m.locals i.toNat) .localCount m := by
  rw [localAt, get_bind_apply, bind_of_ok (touch_of_tidy wf tidy _), get_bind_apply]

theorem ends_requireArgs (wf : m.heap.WellFormed) (tidy : m.heap.Tidy) (n : Nat) :
    Ends (requireArgs n) m (fun _ m' => m' = m) fun _ _ => True := by
  by_cases hn : m.argc = n
  · rw [ends_iff, requireArgs_eq wf tidy, if_pos hn]
  · rw [ends_iff, requireArgs_eq wf tidy, if_neg hn]
    trivial

theorem ends_localAt (wf : m.heap.WellFormed) (tidy : m.heap.Tidy) (i : UInt16) :
    Ends (localAt i) m (fun r m' => m' = m ∧ m.heap.arrayGet? m.locals i.toNat = some r)
      fun _ _ => True := by
  rw [ends_iff, localAt_eq wf tidy, ← ends_iff]
  exact (ends_orFail _ _).imp (fun _ _ => id) fun _ _ _ => trivial

/-- What has elements is a table. -/
theorem isTable_of_arrayGet? {h : Heap} {a r : Ref} {i : Nat} (tidy : h.Tidy)
    (hr : h.arrayGet? a i = some r) : h.IsTable a := by
  have hk : h.kind a = .table := by
    by_contra hk
    rw [Heap.arrayGet?, Heap.arraySize, Heap.arrayElements, Heap.arraySlots,
      Heap.chain_of_not_table hk, List.flatMap_nil] at hr
    cases hr
  exact ⟨tidy.isValid_of_kind (by rw [hk]; decide), hk⟩

/-! ### Actions on the stack -/

/-- The action changes nothing but the stack. -/
def OnlyStack (x : Action F α) : Prop := ∀ m, Ends x m
  (fun _ m' => m' = { m with stack := m'.stack }) fun _ _ => True

theorem onlyStack_pure (a : α) : OnlyStack (pure a : Action F α) := fun _ => ends_pure rfl

theorem onlyStack_fail (e : Fault) : OnlyStack (fail e : Action F α) := fun _ => ends_throw trivial

theorem OnlyStack.bind {x : Action F α} {f : α → Action F β} (hx : OnlyStack x)
    (hf : ∀ a, OnlyStack (f a)) : OnlyStack (x >>= f) := by
  intro m
  refine ends_bind (hx m) fun a m₁ h₁ => (hf a m₁).imp (fun _ m₂ h₂ => ?_) fun _ _ => id
  rw [h₂, h₁]

theorem onlyStack_get_bind {f : Machine F → Action F β} (hf : ∀ m, OnlyStack (f m)) :
    OnlyStack (get >>= f) := fun m => ends_get_bind (hf m m)

theorem onlyStack_orFail (o : Option α) (e : Fault) : OnlyStack (orFail o e : Action F α) := by
  cases o with
  | some a => exact onlyStack_pure a
  | none => exact onlyStack_fail e

theorem onlyStack_require (c : Bool) (e : Fault) : OnlyStack (require c e : Action F Unit) := by
  cases c with
  | true => exact onlyStack_pure _
  | false => exact onlyStack_fail e

theorem onlyStack_push (r : Ref) : OnlyStack (push r : Action F Unit) := by
  intro m
  rw [ends_iff, push]
  cases m.stack.push r with
  | ok stack => rfl
  | error e => trivial

theorem onlyStack_pop : OnlyStack (pop : Action F Ref) := by
  intro m
  rw [ends_iff, pop]
  cases m.stack.pop with
  | ok p => rfl
  | error e => trivial

theorem onlyStack_popInt : OnlyStack (popInt : Action F Int16) :=
  onlyStack_pop.bind fun _ => onlyStack_get_bind fun _ => onlyStack_orFail _ _

/-- A return clears the activation record, and changes registers of the call. -/
theorem ends_leaveFrame_heap (wf : m.heap.WellFormed) (hl : m.heap.isValid m.locals = true)
    (result : Option Ref) : Ends (leaveFrame result) m (fun _ m' => m' = { m with
      heap := m.heap.arrayClear m.locals, stack := m'.stack, locals := m'.locals, pc := m'.pc
      frameDepth := m'.frameDepth }) fun _ _ => True := by
  refine ends_get_bind (ends_bind (onlyStack_require _ _ m) fun _ m₁ h₁ => ?_)
  refine ends_get_bind (ends_bind (onlyStack_require _ _ m₁) fun _ m₂ h₂ => ?_)
  refine ends_bind (ends_modify (Q := fun _ m' => m' = { m₂ with stack := m'.stack }) rfl)
    fun _ m₃ h₃ => ?_
  refine ends_bind (onlyStack_popInt m₃) fun address m₄ h₄ => ?_
  refine ends_bind (onlyStack_pop m₄) fun locals m₅ h₅ => ?_
  refine ends_bind (onlyStack_popInt m₅) fun base m₆ h₆ => ends_get_bind ?_
  have he : m₆ = { m with stack := m₆.stack } := by rw [h₆, h₅, h₄, h₃, h₂, h₁]
  have hheap : m₆.heap = m.heap := by rw [he]
  have hlocals : m₆.locals = m.locals := by rw [he]
  rw [← hheap] at wf hl
  refine ends_bind (ends_arrayClear wf (hlocals ▸ hl)) fun _ m₇ h₇ => ?_
  refine ends_bind (ends_modify (Q := fun _ m' => m' = { m₇ with
    stack := m'.stack, locals := m'.locals, pc := m'.pc, frameDepth := m'.frameDepth }) rfl)
    fun _ m₈ h₈ => ends_get_bind ?_
  refine (onlyStack_push _ m₈).imp (fun _ m' h => ?_) fun _ _ => id
  rw [h, h₈, h₇, hheap, hlocals, he]

/-! ### Results -/

/-- The action is done, and `r` is on top of the stack. -/
def Gives (x : Action F Unit) (m : Machine F) (r : Ref) (m' : Machine F) : Prop :=
  x m = .ok () m' ∧ m'.stack.slots.back? = some r

/-- `m'` is what a return from the current call of `m` leaves, with the result `r`. -/
structure Handed (m : Machine F) (r : Ref) (m' : Machine F) : Prop where
  /-- The activation record is cleared, and registers of the call are different. -/
  same : m' = { m with
    heap := m.heap.arrayClear m.locals, stack := m'.stack, locals := m'.locals, pc := m'.pc
    frameDepth := m'.frameDepth }
  /-- The result is on top of the stack. -/
  top : m'.stack.slots.back? = some r

theorem ends_push_back (r : Ref) : Ends (push r) m
    (fun _ m' => m' = m.withSlots (m.stack.slots.toList ++ [r])
      ∧ m.stack.slots.toList.length < m.stack.capacity) fun _ _ => True := by
  by_cases room : m.stack.slots.toList.length < m.stack.capacity
  · rw [ends_iff, push_eq rfl room]
    exact ⟨rfl, room⟩
  · rw [ends_iff, push, OperandStack.push, if_neg (by simpa [OperandStack.depth] using room)]
    trivial

/-- What is returned is pushed at the end. -/
theorem top_leaveFrame (r : Ref) : Ends (leaveFrame (some r)) m
    (fun _ m' => m'.stack.slots.back? = some r) fun _ _ => True := by
  have anything : ∀ {γ : Type} {x : Action F γ} {m : Machine F},
      Ends x m (fun _ _ => True) fun _ _ => True := ⟨fun _ => trivial, fun _ => trivial⟩
  refine ends_get_bind (ends_bind anything fun _ _ _ => ?_)
  refine ends_get_bind (ends_bind anything fun _ _ _ => ?_)
  refine ends_bind anything fun _ _ _ => ends_bind anything fun _ _ _ => ?_
  refine ends_bind anything fun _ _ _ => ends_bind anything fun _ _ _ => ends_get_bind ?_
  refine ends_bind anything fun _ _ _ => ends_bind anything fun _ m₁ _ => ends_get_bind ?_
  refine (ends_push_back (m := m₁) r).imp (fun _ _ h => ?_) fun _ _ => id
  rw [h.1, withSlots]
  simp

theorem handed_leaveFrame (wf : m.heap.WellFormed) (hl : m.heap.isValid m.locals = true)
    (r : Ref) : Ends (leaveFrame (some r)) m (fun _ m' => Handed m r m') fun _ _ => True :=
  ((ends_leaveFrame_heap wf hl (some r)).and (top_leaveFrame r)).imp (fun _ _ h => ⟨h.1, h.2⟩)
    fun _ _ _ => trivial

/-- Returning the object on top of the stack. -/
theorem ret1_eq (op : HasOperands m below (l ++ [r])) :
    ret1 m = leaveFrame (some r) (m.withSlots (below ++ l)) := by
  have hframe : decide (0 < m.stack.frameLength) = true := by
    have hd := op.depth
    have hfloor := op.floor
    rw [List.length_append, List.length_singleton] at hd
    rw [OperandStack.frameLength]
    exact decide_eq_true (by omega)
  have hreq : require (decide (0 < m.stack.frameLength)) .badReturn m = .ok () m := by
    rw [hframe]
    rfl
  rw [ret1, get_bind_apply, bind_of_ok hreq, bind_of_ok op.pop_eq]

/-- An object that is pushed and returned. -/
theorem push_ret1_eq (floor : m.stack.base ≤ m.stack.depth)
    (room : m.stack.depth < m.stack.capacity) (r : Ref) :
    (push r >>= fun _ => ret1) m = leaveFrame (some r) m := by
  have op : HasOperands (m.withSlots (m.stack.slots.toList ++ [r])) m.stack.slots.toList
      ([] ++ [r]) := ⟨rfl, floor.trans_eq (by simp [OperandStack.depth])⟩
  have same : m.withSlots m.stack.slots.toList = m := by simp [withSlots]
  rw [bind_of_ok (push_eq rfl (by simpa [OperandStack.depth] using room) r), ret1_eq op,
    List.append_nil, withSlots_withSlots, same]

/-- The object on top of the stack is returned. -/
theorem ends_ret1 (wf : m.heap.WellFormed) (hl : m.heap.isValid m.locals = true)
    (op : HasOperands m below (l ++ [r])) :
    Ends ret1 m (fun _ m' => Handed m r m') fun _ _ => True := by
  rw [ends_iff, ret1_eq op, ← ends_iff]
  refine (handed_leaveFrame (m := m.withSlots (below ++ l)) wf hl r).imp
    (fun _ m' hd => ⟨?_, hd.top⟩) fun _ _ => id
  rw [hd.same]
  rfl

/-! ### Calls of functions -/

/-- The bookkeeping stays in place when the heap grows. -/
theorem CalledBy.grows (hc : CalledBy c m) (g : Heap.Grows m.heap m'.heap)
    (hstack : m'.stack = m.stack) (hlocals : m'.locals = m.locals)
    (hdepth : m'.frameDepth = m.frameDepth) : CalledBy c m' := by
  have hint : ∀ {r i}, m.heap.value r = .int i → m'.heap.value r = .int i := fun hv =>
    (g.spares.unaltered (Heap.kind_of_value hv (by simp)).1).value.trans hv
  refine ⟨⟨g.wellFormed, g.tidy hc.sound.tidy, ?_, ?_⟩, by rw [hstack, hc.base], ?_, ?_,
    hdepth ▸ hc.frameDepth⟩
  · rw [hstack]
    exact hc.sound.floor
  · rw [hstack]
    exact hc.sound.ceiling
  · rw [hstack]
    exact ⟨hc.saved.base.imp fun _ h => ⟨h.1, hint h.2⟩, hc.saved.locals,
      hc.saved.address.imp fun _ h => ⟨h.1, hint h.2⟩, hc.saved.floor⟩
  · rw [hlocals]
    exact (g.spares.unaltered hc.locals).isValid

theorem CalledBy.expands (hc : CalledBy c m) (ex : Expands m m') : CalledBy c m' :=
  hc.grows ex.grows (by rw [ex.same]) (by rw [ex.same]) (by rw [ex.same])

/-- A sound machine in a call. -/
structure Serving (m : Machine F) : Prop extends m.Sound where
  /-- The activation record is there. -/
  locals : m.heap.IsTable m.locals

/-- The machine is in a call by `c`, with `n` arguments, and there is room for a result. -/
structure CalledWith (c : Site) (n : Nat) (m : Machine F) : Prop extends CalledBy c m where
  /-- The activation record is a table. -/
  isTable : m.heap.IsTable m.locals
  /-- There are as many arguments. -/
  argc : m.argc = n
  /-- An object more fits on the stack. -/
  room : m.stack.depth < m.stack.capacity

namespace CalledWith

theorem serving (hc : CalledWith c n m) : m.Serving := ⟨hc.sound, hc.isTable⟩

/-- A function that was called with as many arguments as it wants goes on. -/
theorem requireArgs_eq (hc : CalledWith c n m) : requireArgs n m = .ok () m := by
  rw [Machine.requireArgs_eq hc.sound.wellFormed hc.sound.tidy, if_pos hc.argc]

/-- An argument that is there is read. -/
theorem localAt_eq (hc : CalledWith c n m) {i : UInt16} {j : Nat} (hj : i.toNat = j)
    (harg : m.heap.arrayGet? m.locals j = some r) : localAt i m = .ok r m := by
  rw [Machine.localAt_eq hc.sound.wellFormed hc.sound.tidy, hj, harg]
  rfl

/-- An integer is taken for what it is. -/
theorem intArg_eq (hc : CalledWith c n m) {i : UInt16} {j : Nat} (hj : i.toNat = j) {k : Int16}
    (harg : m.heap.arrayGet? m.locals j = some r) (hk : m.value r = .int k) :
    intArg i m = .ok k m := by
  rw [intArg, bind_of_ok (hc.localAt_eq hj harg), get_bind_apply, hk]
  rfl

/-- A result that is there can be returned. -/
theorem exists_gives (hc : CalledWith c n m) (r : Ref) :
    ∃ m', Gives (push r >>= fun _ => ret1) m r m' := by
  obtain ⟨m', hs, -⟩ := hc.exists_leaveFrame (some r)
  refine ⟨m', ?_, (top_leaveFrame r).of_ok hs⟩
  rw [push_ret1_eq hc.sound.floor hc.room, hs]

end CalledWith

end Machine

end SwarmVm
