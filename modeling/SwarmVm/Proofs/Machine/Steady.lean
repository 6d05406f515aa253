import SwarmVm.Machine.Execute
import SwarmVm.Proofs.Heap.Containers

/-!
# Work inside a call

Between its calls and returns a machine works on the heap and on the part of the stack above the
floor of the current call. `Machine.Steady` says so: the registers that belong to a call are as they
were, the stack below the floor is untouched, no object disappears and only tables change.

What a machine may take for granted about the objects it handles depends on what is to be shown. A
`Heap.Reliance` is a condition on objects under which tables may be read and written, and which is
inherited by what a table holds, by new objects, and through every change of the heap. Two of them
are in use. `Heap.Whole` asks that everything that can be reached from an object is there; under it
a machine that is closed stays closed. `Heap.Arbitrary` asks only that free slots are tidy, and then
nothing is known about the objects a script handles.

Everything a machine does inside a call is shown to be steady under any reliance, action by action,
and both uses follow.

## Main definitions

* `Heap.Reliance`, `Heap.Whole`, `Heap.Arbitrary` — conditions on objects
* `Machine.Reliable` — all objects that a machine refers to meet the condition
* `Machine.Steady` — how a machine changes inside a call
* `Machine.Yields` — an action is steady, whether it answers or faults

## Main results

* `Heap.reliance_whole`, `Heap.reliance_arbitrary` — the two conditions
* `Machine.yields_push`, `Machine.yields_tableSet` and the like — actions inside a call
-/

namespace SwarmVm

/-! ### Conditions on objects -/

namespace Heap

variable {h h' : Heap} {r e : Ref} {A : Set Ref}

/-- A condition on objects under which a machine can work with them. -/
structure Reliance (P : Heap → Ref → Prop) : Prop where
  /-- What looks like a table is one. -/
  table : ∀ {h r}, P h r → h.kind r = .table → h.isValid r = true
  /-- What an object points at meets the condition. -/
  pointsTo : ∀ {h r e}, P h r → h.PointsTo r e → P h e
  /-- The index of an object fits in an element slot. -/
  slot : ∀ {h r}, h.WellFormed → P h r → P h (slotRef r)
  /-- The condition is kept by every change that brings in only objects that meet it. -/
  evolves : ∀ {h h' r}, Evolves ∅ {e | P h e} h h' → P h r → P h' r
  /-- A new object meets it. -/
  new : ∀ {h h' r r₀}, P h r₀ → NewObject {e | P h e} h r h' → P h' r
  /-- The condition is kept when an object is cleared. -/
  clear : ∀ {h a r}, h.WellFormed → h.isValid a = true → P h r → P (h.arrayClear a) r

/-- The object and everything that can be reached from it is there. -/
def Whole (h : Heap) (r : Ref) : Prop :=
  ∀ e, Relation.ReflTransGen h.PointsTo r e → h.isValid e = true

theorem Whole.isValid (hr : h.Whole r) : h.isValid r = true := hr r .refl

theorem Whole.of_pointsTo (hr : h.Whole r) (he : h.PointsTo r e) : h.Whole e := by
  intro e' he'
  exact hr e' (Relation.ReflTransGen.head he he')

/-- To be whole it is enough to belong to a set of objects that point at each other only. -/
theorem whole_of_closed {V : Set Ref} (valid : ∀ r ∈ V, h.isValid r = true)
    (closed : ∀ r ∈ V, ∀ e, h.PointsTo r e → e ∈ V) (hr : r ∈ V) : h.Whole r := by
  intro e he
  refine valid e ?_
  induction he with
  | refl => exact hr
  | tail _ hstep ih => exact closed _ ih _ hstep

theorem whole_of_evolves (ev : Evolves ∅ {e | h.Whole e} h h') (hr : h.Whole r) : h'.Whole r := by
  refine whole_of_closed (V := {e | h.Whole e}) (fun r hr => ?_) (fun r hr e he => ?_) hr
  · exact ev.isValid r (Set.notMem_empty r) (Whole.isValid hr)
  · rcases ev.pointsTo r (Set.notMem_empty r) (Whole.isValid hr) e he with he | he
    · exact Whole.of_pointsTo hr he
    · exact he

theorem whole_of_newObject (n : NewObject {e | h.Whole e} h r h') : h'.Whole r := by
  intro e he
  rcases Relation.ReflTransGen.cases_head he with rfl | ⟨e', he', hrest⟩
  · exact n.isValid
  · exact whole_of_evolves n.evolves (n.pointsTo e' he') e hrest

/-- What is cleared points at nothing new. -/
theorem whole_arrayClear {a : Ref} (wf : h.WellFormed) (ha : h.isValid a = true)
    (hr : h.Whole r) : (h.arrayClear a).Whole r := by
  obtain ⟨ev, hv, -, hpoints⟩ := clears_arrayClear (A := {e | h.Whole e}) wf ha
  refine whole_of_closed (V := {e | h.Whole e}) (fun r hr => ?_) (fun r hr e he => ?_) hr
  · by_cases ne : r = a
    · rw [ne]
      exact hv
    · exact ev.isValid r ne (Whole.isValid hr)
  · have hold : h.PointsTo r e ∨ h.Whole e := by
      by_cases ne : r = a
      · rw [ne] at he ⊢
        exact hpoints e he
      · exact ev.pointsTo r ne (Whole.isValid hr) e he
    exact hold.elim (Whole.of_pointsTo hr) id

theorem reliance_whole : Reliance Whole where
  table hr _ := hr.isValid
  pointsTo := Whole.of_pointsTo
  slot wf hr := by rwa [slotRef_of_isValid wf.layout hr.isValid]
  evolves := whole_of_evolves
  new _ := whole_of_newObject
  clear := whole_arrayClear

/-- Any object at all, in a heap with tidy free slots. -/
def Arbitrary (h : Heap) (_ : Ref) : Prop := h.Tidy

theorem reliance_arbitrary : Reliance Arbitrary where
  table {h r} tidy hk := by
    by_contra hv
    rw [tidy r (by simpa using hv)] at hk
    cases hk
  pointsTo tidy _ := tidy
  slot _ tidy := tidy
  evolves ev tidy := ev.tidy tidy
  new tidy n := n.evolves.tidy tidy
  clear wf ha tidy := (clears_arrayClear (A := ∅) wf ha).1.tidy tidy

/-- Every object of `h` is there in `h'`, of the same kind and as permanent as it was, and has its
value, unless it is a table. -/
structure Keeps (h h' : Heap) : Prop where
  /-- Objects are still there, -/
  isValid : ∀ r, h.isValid r = true → h'.isValid r = true
  /-- and have their permanence, -/
  permanent : ∀ r, h.isValid r = true → (h'.header r).permanent = (h.header r).permanent
  /-- their kind, -/
  kind : ∀ r, h.isValid r = true → h'.kind r = h.kind r
  /-- and, unless they are tables, their value. -/
  scalar : ∀ r, h.isValid r = true → h.kind r ≠ .table → h'.value r = h.value r

namespace Keeps

theorem refl (h : Heap) : Keeps h h :=
  ⟨fun _ hv => hv, fun _ _ => rfl, fun _ _ => rfl, fun _ _ _ => rfl⟩

theorem trans {h'' : Heap} (k : Keeps h h') (k' : Keeps h' h'') : Keeps h h'' where
  isValid r hv := k'.isValid r (k.isValid r hv)
  permanent r hv := (k'.permanent r (k.isValid r hv)).trans (k.permanent r hv)
  kind r hv := (k'.kind r (k.isValid r hv)).trans (k.kind r hv)
  scalar r hv ht := by
    have hk := k.kind r hv
    rw [k'.scalar r (k.isValid r hv) (hk ▸ ht), k.scalar r hv ht]

theorem of_evolves (ev : Evolves ∅ A h h') : Keeps h h' where
  isValid r := ev.isValid r (Set.notMem_empty r)
  permanent r := ev.permanent r (Set.notMem_empty r)
  kind r := ev.kind r (Set.notMem_empty r)
  scalar r := ev.scalar r (Set.notMem_empty r)

theorem isTable (k : Keeps h h') (ht : h.IsTable r) : h'.IsTable r :=
  ⟨k.isValid r ht.1, (k.kind r ht.1).trans ht.2⟩

/-- An integer is still the same integer. -/
theorem value_int (k : Keeps h h') {i : Int16} (hi : h.value r = .int i) : h'.value r = .int i := by
  obtain ⟨hv, hk⟩ := kind_of_value hi (by simp)
  rw [k.scalar r hv (by rw [hk]; simp [Value.kind]), hi]

end Keeps

end Heap

/-! ### Machines -/

namespace Machine

open Heap (Reliance Keeps Evolves NewObject slotRef)

variable {F α β : Type} {m m' m'' : Machine F} {P : Heap → Ref → Prop}

/-- The objects that the shared store and the inbox own. -/
def stored (m : Machine F) : List Ref :=
  m.stigmergy.entries.toList.map (·.value) ++ m.inbox.toList.filterMap Message.payload?

/-- What a machine refers to besides the objects on its stack. -/
def registers (m : Machine F) : List Ref := m.ambient ++ m.stored

/-- The heap is well formed, the top of the stack is between its floor and its greatest depth, and
every object that the machine refers to meets the condition `P`. -/
structure Reliable (P : Heap → Ref → Prop) (m : Machine F) : Prop where
  /-- The heap is well formed. -/
  wellFormed : m.heap.WellFormed
  /-- The floor is not above the top. -/
  floor : m.stack.base ≤ m.stack.depth
  /-- The stack is not too deep. -/
  ceiling : m.stack.depth ≤ m.stack.capacity
  /-- The objects on the stack meet the condition. -/
  slots : ∀ r ∈ m.stack.slots.toList, P m.heap r
  /-- So do the others. -/
  registers : ∀ r ∈ m.registers, P m.heap r

namespace Reliable

theorem nil (hm : m.Reliable P) : P m.heap m.nil :=
  hm.registers _ (by simp [Machine.registers, ambient])

theorem defaultRecord (hm : m.Reliable P) : P m.heap m.defaultRecord :=
  hm.registers _ (by simp [Machine.registers, ambient])

theorem globals (hm : m.Reliable P) : P m.heap m.globals :=
  hm.registers _ (by simp [Machine.registers, ambient])

theorem locals (hm : m.Reliable P) : P m.heap m.locals :=
  hm.registers _ (by simp [Machine.registers, ambient])

end Reliable

/-- `m'` comes from `m` by work inside the current call. -/
structure Steady (P : Heap → Ref → Prop) (m m' : Machine F) : Prop where
  /-- Only the heap, the stack, the program counter and the log are different. -/
  same : m' = { m with heap := m'.heap, stack := m'.stack, pc := m'.pc, log := m'.log }
  /-- The objects it refers to still meet the condition, -/
  reliable : m'.Reliable P
  /-- and so do all others. -/
  relies : ∀ r, P m.heap r → P m'.heap r
  /-- No object disappears. -/
  keeps : Keeps m.heap m'.heap
  /-- The floor is where it was. -/
  base : m'.stack.base = m.stack.base
  /-- The stack may get as deep as before. -/
  capacity : m'.stack.capacity = m.stack.capacity
  /-- Below the floor the stack is the same. -/
  slots : ∀ i < m.stack.base, m'.stack.slots[i]? = m.stack.slots[i]?

namespace Steady

theorem refl (hm : m.Reliable P) : Steady P m m :=
  ⟨rfl, hm, fun _ => id, .refl _, rfl, rfl, fun _ _ => rfl⟩

theorem trans (st : Steady P m m') (st' : Steady P m' m'') : Steady P m m'' where
  same := by
    rw [st'.same, st.same]
  reliable := st'.reliable
  relies r hr := st'.relies r (st.relies r hr)
  keeps := st.keeps.trans st'.keeps
  base := st'.base.trans st.base
  capacity := st'.capacity.trans st.capacity
  slots i hi := (st'.slots i (by rw [st.base]; exact hi)).trans (st.slots i hi)

end Steady

theorem steady_of_heap (rel : Reliance P) (hm : m.Reliable P) {h : Heap}
    (ev : Evolves ∅ {e | P m.heap e} m.heap h) : Steady P m { m with heap := h } where
  same := rfl
  reliable := ⟨ev.wellFormed, hm.floor, hm.ceiling, fun r hr => rel.evolves ev (hm.slots r hr),
    fun r hr => rel.evolves ev (hm.registers r hr)⟩
  relies _ hr := rel.evolves ev hr
  keeps := .of_evolves ev
  base := rfl
  capacity := rfl
  slots _ _ := rfl

theorem steady_of_stack (hm : m.Reliable P) {s : OperandStack} (base : s.base = m.stack.base)
    (capacity : s.capacity = m.stack.capacity)
    (ceiling : s.depth ≤ m.stack.capacity) (floor : m.stack.base ≤ s.depth)
    (below : ∀ i < m.stack.base, s.slots[i]? = m.stack.slots[i]?)
    (slots : ∀ r ∈ s.slots.toList, P m.heap r) : Steady P m { m with stack := s } where
  same := rfl
  reliable := ⟨hm.wellFormed, base ▸ floor, capacity ▸ ceiling, slots, hm.registers⟩
  relies _ := id
  keeps := .refl _
  base := base
  capacity := capacity
  slots := below

/-- The action answers something of which `R` holds, or faults, and is steady in both cases. -/
def Yields (P : Heap → Ref → Prop) (x : Action F α) (m : Machine F)
    (R : α → Machine F → Prop) : Prop :=
  Ends x m (fun a m' => Steady P m m' ∧ R a m') fun e m' => e ≠ .outOfFuel ∧ Steady P m m'

section Combinators

variable {x : Action F α} {R R' : α → Machine F → Prop} {S : β → Machine F → Prop}

theorem yields_pure {a : α} (hm : m.Reliable P) (hR : R a m) : Yields P (pure a) m R :=
  ends_pure ⟨.refl hm, hR⟩

theorem yields_fail {e : Fault} (hm : m.Reliable P) : Yields P (fail e) m R :=
  ends_throw ⟨by simp, .refl hm⟩

/-- An action that follows starts where the first one ended. -/
theorem Yields.bind {f : α → Action F β} (hx : Yields P x m R)
    (hf : ∀ a m', Steady P m m' → R a m' → Yields P (f a) m' S) : Yields P (x >>= f) m S := by
  refine ends_bind hx fun a m' h => ?_
  exact (hf a m' h.1 h.2).imp (fun _ _ h' => ⟨h.1.trans h'.1, h'.2⟩)
    fun _ _ h' => ⟨h'.1, h.1.trans h'.2⟩

theorem Yields.imp (hx : Yields P x m R) (hR : ∀ a m', Steady P m m' → R a m' → R' a m') :
    Yields P x m R' :=
  Ends.imp hx (fun a m' h => ⟨h.1, hR a m' h.1 h.2⟩) fun _ _ => id

theorem yields_get_bind {f : Machine F → Action F β} (hf : Yields P (f m) m S) :
    Yields P (get >>= f) m S :=
  ends_get_bind hf

theorem yields_orFail {o : Option α} {e : Fault} (hm : m.Reliable P) :
    Yields P (orFail o e) m fun a m' => m' = m ∧ o = some a := by
  cases o with
  | some a => exact yields_pure hm ⟨rfl, rfl⟩
  | none => exact yields_fail hm

theorem yields_require {c : Bool} {e : Fault} (hm : m.Reliable P) :
    Yields P (require c e) m fun _ m' => m' = m ∧ c = true := by
  cases c with
  | true => exact yields_pure hm ⟨rfl, rfl⟩
  | false => exact yields_fail hm

end Combinators

/-! ### Single actions -/

theorem yields_emit {e : Event} (hm : m.Reliable P) : Yields P (emit e) m fun _ _ => True :=
  ends_modify ⟨⟨rfl, ⟨hm.wellFormed, hm.floor, hm.ceiling, hm.slots, hm.registers⟩, fun _ => id,
    .refl _, rfl, rfl, fun _ _ => rfl⟩, trivial⟩

theorem yields_setPc {pc : UInt16} (hm : m.Reliable P) :
    Yields P (modify fun m => { m with pc }) m fun _ _ => True :=
  ends_modify ⟨⟨rfl, ⟨hm.wellFormed, hm.floor, hm.ceiling, hm.slots, hm.registers⟩, fun _ => id,
    .refl _, rfl, rfl, fun _ _ => rfl⟩, trivial⟩

/-- An access to a table that is there is not noted. -/
theorem touch_eq (wf : m.heap.WellFormed) {t : Ref}
    (ht : m.heap.kind t = .table → m.heap.isValid t = true) : touch t m = .ok () m := by
  have he : { m with strayed := m.strayed || !m.heap.isIntact t } = m := by
    rw [wf.isIntact ht, Bool.not_true, Bool.or_false]
  exact congrArg (EStateM.Result.ok ()) he

theorem touchSlot_eq {r : Ref} (hr : m.heap.isValid r = true) : touchSlot r m = .ok () m := by
  have he : { m with strayed := m.strayed || !decide (r.toNat < m.heap.objectSlots) } = m := by
    rw [decide_eq_true (Heap.lt_objectSlots_of_isValid hr), Bool.not_true, Bool.or_false]
  exact congrArg (EStateM.Result.ok ()) he

theorem yields_touch (rel : Reliance P) (hm : m.Reliable P) {t : Ref} (ht : P m.heap t) :
    Yields P (touch t) m fun _ m' => m' = m := by
  rw [Yields, ends_iff, touch_eq hm.wellFormed (rel.table ht)]
  exact ⟨.refl hm, rfl⟩

theorem yields_touchSlot (hm : m.Reliable P) {r : Ref} (hr : m.heap.isValid r = true) :
    Yields P (touchSlot r) m fun _ m' => m' = m := by
  rw [Yields, ends_iff, touchSlot_eq hr]
  exact ⟨.refl hm, rfl⟩

theorem yields_onHeap (rel : Reliance P) (hm : m.Reliable P) {x : HeapM α} {R : α → Heap → Prop}
    (hx : Ends x m.heap (fun a h => Evolves ∅ {e | P m.heap e} m.heap h ∧ R a h)
      fun _ h => Evolves ∅ {e | P m.heap e} m.heap h) :
    Yields P (onHeap x) m fun a m' => R a m'.heap := by
  rw [ends_iff] at hx
  rw [Yields, ends_iff, onHeap]
  simp only [detachHeap]
  cases ha : x m.heap with
  | ok a h =>
    rw [ha] at hx
    exact ⟨steady_of_heap rel hm hx.1, hx.2⟩
  | error e h =>
    rw [ha] at hx
    exact ⟨by simp, steady_of_heap rel hm hx⟩

theorem yields_changeHeap (rel : Reliance P) (hm : m.Reliable P) {f : Heap → α × Heap}
    (ev : Evolves ∅ {e | P m.heap e} m.heap (f m.heap).2) :
    Yields P (changeHeap f) m fun a m' => a = (f m.heap).1 ∧ m'.heap = (f m.heap).2 :=
  ends_iff.2 ⟨steady_of_heap rel hm ev, rfl, rfl⟩

theorem yields_modifyHeap (rel : Reliance P) (hm : m.Reliable P) {f : Heap → Heap}
    (ev : Evolves ∅ {e | P m.heap e} m.heap (f m.heap)) :
    Yields P (modifyHeap f) m fun _ m' => m'.heap = f m.heap :=
  (yields_changeHeap rel hm ev).imp fun _ _ _ h => h.2

/-! ### The stack -/

theorem yields_push (hm : m.Reliable P) {r : Ref} (hr : P m.heap r) :
    Yields P (push r) m fun _ _ => True := by
  rw [Yields, ends_iff, push, OperandStack.push]
  by_cases hroom : m.stack.depth < m.stack.capacity
  · simp only [hroom, if_true]
    refine ⟨steady_of_stack hm rfl rfl ?_ ?_ (fun i hi => ?_) fun r' hr' => ?_, trivial⟩
    · rw [OperandStack.depth, Array.size_push]
      exact hroom
    · rw [OperandStack.depth, Array.size_push]
      exact hm.floor.trans (Nat.le_succ _)
    · have hlt : i < m.stack.slots.size := hi.trans_le hm.floor
      exact (Array.getElem?_push_lt hlt).trans (Array.getElem?_eq_getElem hlt).symm
    · rw [Array.toList_push, List.mem_append, List.mem_singleton] at hr'
      exact hr'.elim (hm.slots r') fun he => he ▸ hr
  · simp only [hroom, if_false]
    exact ⟨by simp, .refl hm⟩

theorem slots_getD_mem {s : OperandStack} {i : Nat} (hi : i < s.depth) :
    s.slots.getD i 0 ∈ s.slots.toList := by
  rw [Array.getD_eq_getD_getElem?, Array.getElem?_eq_getElem hi, Option.getD_some]
  exact Array.getElem_mem_toList hi

theorem yields_pop (hm : m.Reliable P) : Yields P pop m fun r m' => P m'.heap r := by
  have hfloor := hm.floor
  have hceiling := hm.ceiling
  rw [Yields, ends_iff, pop, OperandStack.pop]
  by_cases hempty : m.stack.depth = m.stack.base
  · simp only [hempty, if_true]
    exact ⟨by simp, .refl hm⟩
  · simp only [hempty, if_false]
    have hsize : (m.stack.slots.pop).size = m.stack.depth - 1 := Array.size_pop
    refine ⟨steady_of_stack hm rfl rfl ?_ ?_ (fun i hi => ?_) fun r' hr' => ?_,
      hm.slots _ (slots_getD_mem (by omega))⟩
    · rw [OperandStack.depth, hsize]
      omega
    · rw [OperandStack.depth, hsize]
      omega
    · have hlt : i < m.stack.depth - 1 := by omega
      exact Array.getElem?_pop.trans (if_pos hlt)
    · rw [Array.toList_pop] at hr'
      exact hm.slots r' (List.mem_of_mem_dropLast hr')

theorem yields_peek (hm : m.Reliable P) {n : Nat} : Yields P (peek n) m fun r m' =>
    m' = m ∧ P m'.heap r ∧ r = m.stack.slots.getD (m.stack.depth - 1 - n) 0 := by
  rw [Yields, ends_iff, peek, OperandStack.peek]
  by_cases hn : n < m.stack.frameLength
  · simp only [hn, if_true]
    rw [OperandStack.frameLength] at hn
    exact ⟨.refl hm, trivial, hm.slots _ (slots_getD_mem (by omega)), trivial⟩
  · simp only [hn, if_false]
    exact ⟨by simp, .refl hm⟩

theorem yields_setPeek (hm : m.Reliable P) {n : Nat} {r : Ref} (hr : P m.heap r) :
    Yields P (setPeek n r) m fun _ _ => True := by
  have hfloor := hm.floor
  rw [Yields, ends_iff, setPeek, OperandStack.setPeek]
  by_cases hn : n < m.stack.frameLength
  · simp only [hn, if_true]
    rw [OperandStack.frameLength] at hn
    refine ⟨steady_of_stack hm rfl rfl ?_ ?_ (fun i hi => ?_) fun r' hr' => ?_, trivial⟩
    · rw [OperandStack.depth, Array.size_setIfInBounds]
      exact hm.ceiling
    · rw [OperandStack.depth, Array.size_setIfInBounds]
      exact hm.floor
    · exact Array.getElem?_setIfInBounds_ne (by omega)
    · rw [Array.toList_setIfInBounds] at hr'
      exact (List.mem_or_eq_of_mem_set hr').elim (hm.slots r') fun he => he ▸ hr
  · simp only [hn, if_false]
    exact ⟨by simp, .refl hm⟩

/-! ### Objects, tables and arrays -/

/-- A new object that is no table and captures nothing unreliable. -/
theorem yields_allocValue (rel : Reliance P) (hm : m.Reliable P) {v : Value}
    (ht : ∀ t, v ≠ .table t) (hv : ∀ c e, v = .closure c → c.captured = some e → P m.heap e) :
    Yields P (onHeap (Heap.allocValue v)) m fun r m' => P m'.heap r := by
  refine yields_onHeap rel hm ((Heap.newObject_allocValue hm.wellFormed ht hv).imp
    (fun _ _ n => ⟨n.1.evolves, rel.new hm.nil n.1⟩) ?_)
  rintro _ _ rfl
  exact .refl hm.wellFormed

theorem yields_alloc (rel : Reliance P) (hm : m.Reliable P) {v : Value}
    (hv : ∀ c e, v = .closure c → c.captured = some e → P m.heap e) :
    Yields P (alloc v) m fun r m' => P m'.heap r := by
  cases v with
  | nil => exact yields_get_bind (yields_pure hm hm.nil)
  | table t => exact yields_fail hm
  | closure c => exact yields_allocValue rel hm (by simp) hv
  | _ => exact yields_allocValue rel hm (by simp) (by simp)

theorem yields_allocScalar (rel : Reliance P) (hm : m.Reliable P) {v : Value}
    (hv : ∀ c, v ≠ .closure c) : Yields P (alloc v) m fun r m' => P m'.heap r :=
  yields_alloc rel hm fun c _ hc => absurd hc (hv c)

theorem yields_tableNew (rel : Reliance P) (hm : m.Reliable P) :
    Yields P (onHeap Heap.tableNew) m fun r m' => P m'.heap r :=
  yields_onHeap rel hm ((Heap.newObject_alloc hm.wellFormed .table).imp
    (fun _ _ n => ⟨n.evolves, rel.new hm.nil n⟩) fun _ _ => id)

theorem yields_arrayNew (rel : Reliance P) (hm : m.Reliable P) :
    Yields P (onHeap Heap.arrayNew) m fun r m' => P m'.heap r :=
  yields_onHeap rel hm ((Heap.newObject_arrayNew hm.wellFormed).imp
    (fun _ _ n => ⟨n.1.evolves, rel.new hm.nil n.1⟩) fun _ _ => id)

theorem yields_tableGet (rel : Reliance P) (hm : m.Reliable P) {t key : Ref} (ht : P m.heap t) :
    Yields P (tableGet t key) m fun r m' => P m'.heap r := by
  refine (yields_touch rel hm ht).bind fun _ m' _ he => ?_
  subst he
  refine yields_get_bind (yields_pure hm ?_)
  cases hg : m'.heap.tableGet? t key with
  | none => exact hm.nil
  | some r => exact rel.pointsTo ht (Heap.pointsTo_of_tableGet? hm.wellFormed (rel.table ht) hg)

theorem yields_tableSet (rel : Reliance P) (hm : m.Reliable P) {t key r : Ref} (ht : P m.heap t)
    (hk : P m.heap key) (hr : P m.heap r) : Yields P (tableSet t key r) m fun _ _ => True := by
  refine (yields_touch rel hm ht).bind fun _ m' _ he => ?_
  subst he
  refine yields_onHeap rel hm ((Heap.evolves_tableSet hm.wellFormed (rel.table ht)
    (rel.slot hm.wellFormed hk) (rel.slot hm.wellFormed hr)).imp (fun _ _ ev => ⟨ev, trivial⟩) ?_)
  rintro _ _ rfl
  exact .refl hm.wellFormed

theorem yields_arrayPush (rel : Reliance P) (hm : m.Reliable P) {a r : Ref} (ha : P m.heap a)
    (hr : P m.heap r) : Yields P (arrayPush a r) m fun _ _ => True := by
  refine (yields_touch rel hm ha).bind fun _ m' _ he => ?_
  subst he
  refine yields_onHeap rel hm ((Heap.evolves_arrayPush hm.wellFormed (rel.table ha)
    (rel.slot hm.wellFormed hr)).imp (fun _ _ ev => ⟨ev, trivial⟩) ?_)
  rintro _ _ rfl
  exact .refl hm.wellFormed

theorem yields_arrayClone (rel : Reliance P) (hm : m.Reliable P) {a : Ref} (ha : P m.heap a) :
    Yields P (arrayClone a) m fun r m' => P m'.heap r ∧ m'.heap.IsTable r := by
  refine (yields_touch rel hm ha).bind fun _ m' _ he => ?_
  subst he
  refine yields_onHeap (R := fun r h => P h r ∧ h.IsTable r) rel hm
    ((Heap.newObject_arrayClone hm.wellFormed fun e he => ?_).imp
    (fun _ _ n => ⟨n.1.evolves, rel.new hm.nil n.1, n.2⟩) fun _ _ => id)
  exact rel.slot hm.wellFormed (rel.pointsTo ha
    (Heap.pointsTo_of_mem_arrayElements hm.wellFormed (rel.table ha) he))

theorem evolves_arraySet (rel : Reliance P) (hm : m.Reliable P) {a r : Ref} {i : Nat}
    (ha : P m.heap a) (hr : P m.heap r) :
    Evolves ∅ {e | P m.heap e} m.heap (m.heap.arraySet a i r).2 :=
  Heap.evolves_arraySet hm.wellFormed (rel.table ha) i (rel.slot hm.wellFormed hr)

end Machine

end SwarmVm
