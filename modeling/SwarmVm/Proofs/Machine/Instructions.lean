import SwarmVm.Proofs.Machine.Steady

/-!
# Instructions inside a call

Every instruction except those that open or close a call is steady: it leaves the registers of the
call and the stack below its floor alone, and handles only objects that it found on the stack, in
the locals and globals, or made itself.

## Main results

* `Machine.yields_localAt`, `Machine.yields_field`, `Machine.yields_bindClosure` and the like — the
  actions that instructions and host functions share
* `Machine.yields_perform` — the instructions
* `Machine.ends_collectGarbage` — the collection before an instruction
-/

namespace SwarmVm

/-- The instruction opens or closes a call. -/
def Opcode.switchesFrame : Opcode → Bool
  | .call | .ret0 | .ret1 => true
  | _ => false

namespace Machine

open Heap (Reliance)

variable {F : Type} {m : Machine F} {P : Heap → Ref → Prop}

/-! ### Locals and arguments -/

theorem yields_localAt (rel : Reliance P) (hm : m.Reliable P) {i : UInt16} :
    Yields P (localAt i) m fun r m' => P m'.heap r := by
  refine yields_get_bind ((yields_touch rel hm hm.locals).bind fun _ m' _ he => ?_)
  subst he
  refine yields_get_bind ((yields_orFail hm).imp fun r m' _ h => ?_)
  obtain ⟨rfl, hg⟩ := h
  exact rel.pointsTo hm.locals (Heap.pointsTo_of_arrayGet? hm.wellFormed (rel.table hm.locals) hg)

theorem yields_requireArgs (rel : Reliance P) (hm : m.Reliable P) {n : Nat} :
    Yields P (requireArgs n) m fun _ _ => True := by
  refine yields_get_bind ((yields_touch rel hm hm.locals).bind fun _ m' _ he => ?_)
  subst he
  exact yields_get_bind ((yields_require hm).imp fun _ _ _ _ => trivial)

/-- Any reading of an argument that may fault is steady. -/
theorem yields_argument {α : Type} (rel : Reliance P) (hm : m.Reliable P) {i : UInt16}
    {f : Value → Option α} {e : Fault} : Yields P (do
      let r ← localAt i
      orFail (f ((← get).value r)) e) m fun _ _ => True :=
  (yields_localAt rel hm).bind fun _ _ st _ =>
    yields_get_bind ((yields_orFail st.reliable).imp fun _ _ _ _ => trivial)

theorem yields_closureArg (rel : Reliance P) (hm : m.Reliable P) {i : UInt16} :
    Yields P (closureArg i) m fun r m' => P m'.heap r := by
  refine (yields_localAt rel hm).bind fun r m' st hr => yields_get_bind ?_
  refine (yields_require st.reliable).bind fun _ m'' st' h => yields_pure st'.reliable ?_
  exact h.1 ▸ hr

theorem yields_expectTable (hm : m.Reliable P) {r : Ref} :
    Yields P (expectTable r) m fun _ m' => m' = m :=
  yields_get_bind ((yields_require hm).imp fun _ _ _ h => h.1)

/-! ### Putting objects on the stack -/

theorem yields_popPair (hm : m.Reliable P) :
    Yields P popPair m fun p m' => P m'.heap p.1 ∧ P m'.heap p.2 := by
  refine (yields_pop hm).bind fun b m' st hb => (yields_pop st.reliable).bind fun a m'' st' ha => ?_
  exact yields_pure st'.reliable ⟨ha, st'.relies b hb⟩

theorem yields_pushValue (rel : Reliance P) (hm : m.Reliable P) {v : Value}
    (hv : ∀ c e, v = .closure c → c.captured = some e → P m.heap e) :
    Yields P (pushValue v) m fun _ _ => True :=
  (yields_alloc rel hm hv).bind fun _ _ st hr => yields_push st.reliable hr

theorem yields_pushScalar (rel : Reliance P) (hm : m.Reliable P) {v : Value}
    (hv : ∀ c, v ≠ .closure c) : Yields P (pushValue v) m fun _ _ => True :=
  yields_pushValue rel hm fun c _ hc => absurd hc (hv c)

theorem yields_pushNil (hm : m.Reliable P) : Yields P pushNil m fun _ _ => True :=
  yields_get_bind (yields_push hm hm.nil)

theorem yields_pushInt (rel : Reliance P) (hm : m.Reliable P) {i : Int16} :
    Yields P (pushInt i) m fun _ _ => True :=
  yields_pushScalar rel hm (by simp)

theorem yields_pushBool (rel : Reliance P) (hm : m.Reliable P) {b : Bool} :
    Yields P (pushBool b) m fun _ _ => True :=
  yields_pushInt rel hm

theorem yields_pushString (rel : Reliance P) (hm : m.Reliable P) {id : NameId} :
    Yields P (pushString id) m fun _ _ => True :=
  yields_get_bind ((yields_require hm).bind fun _ _ st _ =>
    yields_pushScalar rel st.reliable (by simp))

theorem yields_pushTable (rel : Reliance P) (hm : m.Reliable P) :
    Yields P pushTable m fun r m' => P m'.heap r :=
  (yields_tableNew rel hm).bind fun r _ st hr => (yields_push st.reliable hr).bind fun _ _ st' _ =>
    yields_pure st'.reliable (st'.relies r hr)

/-! ### Fields and methods -/

theorem yields_field (rel : Reliance P) (hm : m.Reliable P) {t : Ref} {name : NameId}
    (ht : P m.heap t) : Yields P (field t name) m fun r m' => P m'.heap r :=
  (yields_allocScalar rel hm (by simp)).bind fun _ _ st _ =>
    yields_tableGet rel st.reliable (st.relies t ht)

theorem yields_setField (rel : Reliance P) (hm : m.Reliable P) {t r : Ref} {name : NameId}
    (ht : P m.heap t) (hr : P m.heap r) : Yields P (setField t name r) m fun _ _ => True :=
  (yields_allocScalar rel hm (by simp)).bind fun _ _ st hk =>
    yields_tableSet rel st.reliable (st.relies t ht) hk (st.relies r hr)

/-- The copy of a record is new, so its flag may be dropped. -/
theorem yields_rebind (rel : Reliance P) (hm : m.Reliable P) {captured self : Ref}
    (hc : P m.heap captured) (hs : P m.heap self) :
    Yields P (rebind captured self) m fun r m' => P m'.heap r := by
  refine (yields_arrayClone rel hm hc).bind fun record m₁ st₁ hrec => ?_
  obtain ⟨hr₁, htab⟩ := hrec
  refine (yields_touch rel st₁.reliable hr₁).bind fun _ m' _ he => ?_
  subst he
  refine (yields_touchSlot st₁.reliable htab.1).bind fun _ m₁ _ he => ?_
  subst he
  have flag : Heap.Evolves ∅ {e | P m₁.heap e} m₁.heap (m₁.heap.setFlagB record false) :=
    Heap.evolves_setFlagB st₁.reliable.wellFormed htab false
  refine (yields_modifyHeap (f := (·.setFlagB record false)) rel st₁.reliable flag).bind
    fun _ m₂ st₂ _ => ?_
  have hr₂ := st₂.relies record hr₁
  have hs₂ := st₂.relies self (st₁.relies self hs)
  refine (yields_changeHeap (f := (·.arraySet record 0 self)) rel st₂.reliable
    (evolves_arraySet rel st₂.reliable hr₂ hs₂)).bind fun done m₃ st₃ _ => ?_
  have hr₃ := st₃.relies record hr₂
  split
  · refine (yields_arrayPush rel st₃.reliable hr₃ (st₃.relies self hs₂)).bind fun _ m₄ st₄ _ => ?_
    exact yields_pure st₄.reliable (st₄.relies record hr₃)
  · exact yields_pure st₃.reliable hr₃

theorem yields_selfRecord (rel : Reliance P) (hm : m.Reliable P) {self : Ref}
    (hs : P m.heap self) : Yields P (selfRecord self) m fun r m' => P m'.heap r :=
  (yields_arrayNew rel hm).bind fun r _ st hr =>
    (yields_arrayPush rel st.reliable hr (st.relies self hs)).bind fun _ _ st' _ =>
      yields_pure st'.reliable (st'.relies r hr)

theorem asClosure?_eq_some {v : Value} {c : Closure} (hc : v.asClosure? = some c) :
    v = .closure c := by
  cases v <;> simp_all [Value.asClosure?]

theorem yields_bindClosure (rel : Reliance P) (hm : m.Reliable P) {t r : Ref} (ht : P m.heap t)
    (hr : P m.heap r) : Yields P (bindClosure t r) m fun r' m' => P m'.heap r' := by
  have alloc : ∀ (c : Closure) record m', Machine.Steady P m m' → P m'.heap record →
      Yields P (alloc (.closure { c with captured := some record })) m'
        fun r m' => P m'.heap r := by
    intro c record m' st hrec
    refine yields_alloc rel st.reliable fun c' e hc he => ?_
    rw [← Value.closure.inj hc, Option.some.injEq] at he
    exact he ▸ hrec
  refine yields_get_bind ?_
  cases hv : (m.value r).asClosure? with
  | none => exact yields_pure hm hr
  | some c =>
    cases hcap : c.captured with
    | some captured =>
      simp only [hcap]
      have hcaptured := rel.pointsTo hr (.captured (asClosure?_eq_some hv) hcap)
      exact (yields_rebind rel hm hcaptured ht).bind (alloc c)
    | none =>
      simp only [hcap]
      exact (yields_selfRecord rel hm ht).bind (alloc c)

theorem yields_addMethods (rel : Reliance P) (hm : m.Reliable P) {t : Ref} (ht : P m.heap t)
    {methods : List (Builtin × Primitive)} : Yields P (addMethods t methods) m fun _ _ => True := by
  induction methods generalizing m with
  | nil => exact yields_pure hm trivial
  | cons method rest ih =>
    refine (yields_alloc rel hm fun c e hc he => ?_).bind fun function m₁ st₁ hf => ?_
    · rw [← Value.closure.inj hc] at he
      cases he
    have ht₁ := st₁.relies t ht
    refine (yields_bindClosure rel st₁.reliable ht₁ hf).bind fun r m₂ st₂ hr => ?_
    have ht₂ := st₂.relies t ht₁
    exact (yields_setField rel st₂.reliable ht₂ hr).bind fun _ m₃ st₃ _ =>
      ih st₃.reliable (st₃.relies t ht₂)

theorem yields_methodTable (rel : Reliance P) (hm : m.Reliable P)
    {methods : List (Builtin × Primitive)} :
    Yields P (methodTable methods) m fun r m' => P m'.heap r :=
  (yields_tableNew rel hm).bind fun t _ st ht =>
    (yields_addMethods rel st.reliable ht).bind fun _ _ st' _ =>
      yields_pure st'.reliable (st'.relies t ht)

/-! ### Instructions -/

theorem yields_jumpTo (hm : m.Reliable P) {address : UInt16} :
    Yields P (jumpTo address) m fun _ _ => True :=
  yields_get_bind ((yields_require hm).bind fun _ _ st _ => yields_setPc st.reliable)

theorem yields_jumpIf (hm : m.Reliable P) {when : Bool} {address : UInt16} :
    Yields P (jumpIf when address) m fun _ _ => True := by
  refine (yields_pop hm).bind fun r m' st _ => yields_get_bind ?_
  split
  · exact yields_jumpTo st.reliable
  · exact yields_pure st.reliable trivial

theorem yields_number (hm : m.Reliable P) {r : Ref} : Yields P (number r) m fun _ _ => True :=
  yields_get_bind ((yields_orFail hm).imp fun _ _ _ _ => trivial)

theorem yields_integer (hm : m.Reliable P) {r : Ref} : Yields P (integer r) m fun _ _ => True :=
  yields_get_bind ((yields_orFail hm).imp fun _ _ _ _ => trivial)

theorem yields_expectString (hm : m.Reliable P) {r : Ref} :
    Yields P (expectString r) m fun _ _ => True :=
  yields_get_bind ((yields_orFail hm).bind fun _ _ st _ => yields_pure st.reliable trivial)

/-- Arithmetic answers numbers. -/
theorem Arithmetic.apply_ne_closure {op : Arithmetic} {x y : Number} {v : Value}
    (hv : op.apply x y = .ok v) (c : Closure) : v ≠ .closure c := by
  rintro rfl
  have ints : ∀ x y, op.onInts x y ≠ .ok (.closure c) := by
    intro x y
    cases op <;> simp only [Arithmetic.onInts] <;> (try split) <;> simp
  have singles : ∀ x y, op.onSingles x y ≠ .ok (.closure c) := by
    intro x y
    cases op <;> simp only [Arithmetic.onSingles] <;> (try split) <;> simp
  cases x with
  | int x =>
    cases y with
    | int y => exact ints x y hv
    | single y => exact singles _ _ hv
  | single x => exact singles _ _ hv

theorem yields_arithmetic (rel : Reliance P) (hm : m.Reliable P) {op : Arithmetic} :
    Yields P (arithmetic op) m fun _ _ => True := by
  refine (yields_popPair hm).bind fun p m₁ st₁ _ => (yields_number st₁.reliable).bind
    fun x m₂ st₂ _ => (yields_number st₂.reliable).bind fun y m₃ st₃ _ => ?_
  cases hv : op.apply x y with
  | ok v => exact yields_pushScalar rel st₃.reliable (Arithmetic.apply_ne_closure hv)
  | error e => exact yields_fail st₃.reliable

theorem yields_negate (rel : Reliance P) (hm : m.Reliable P) :
    Yields P negate m fun _ _ => True := by
  refine (yields_pop hm).bind fun r m₁ st₁ _ => (yields_number st₁.reliable).bind
    fun x m₂ st₂ _ => yields_pushScalar rel st₂.reliable fun c => ?_
  cases x <;> simp [Number.neg]

theorem yields_logic (rel : Reliance P) (hm : m.Reliable P) {combine : Bool → Bool → Bool} :
    Yields P (logic combine) m fun _ _ => True :=
  (yields_popPair hm).bind fun _ _ st _ => yields_get_bind (yields_pushBool rel st.reliable)

theorem yields_bitwise (rel : Reliance P) (hm : m.Reliable P) {op : Bitwise} :
    Yields P (bitwise op) m fun _ _ => True :=
  (yields_popPair hm).bind fun _ _ st₁ _ => (yields_integer st₁.reliable).bind fun _ _ st₂ _ =>
    (yields_integer st₂.reliable).bind fun _ _ st₃ _ => yields_pushInt rel st₃.reliable

theorem yields_comparison (rel : Reliance P) (hm : m.Reliable P) {test : Comparison} :
    Yields P (comparison test) m fun _ _ => True :=
  (yields_popPair hm).bind fun _ _ st _ => yields_get_bind (yields_pushBool rel st.reliable)

theorem yields_loadGlobal (rel : Reliance P) (hm : m.Reliable P) :
    Yields P loadGlobal m fun _ _ => True :=
  (yields_pop hm).bind fun _ _ st₁ _ => (yields_expectString st₁.reliable).bind fun _ _ st₂ _ =>
    yields_get_bind ((yields_tableGet rel st₂.reliable st₂.reliable.globals).bind
      fun _ _ st₃ hr => yields_push st₃.reliable hr)

theorem yields_storeGlobal (rel : Reliance P) (hm : m.Reliable P) :
    Yields P storeGlobal m fun _ _ => True :=
  (yields_popPair hm).bind fun p _ st₁ hp => (yields_expectString st₁.reliable).bind
    fun _ _ st₂ _ => yields_get_bind (yields_tableSet rel st₂.reliable st₂.reliable.globals
      (st₂.relies p.1 hp.1) (st₂.relies p.2 hp.2))

theorem yields_putField (rel : Reliance P) (hm : m.Reliable P) :
    Yields P putField m fun _ _ => True := by
  refine (yields_pop hm).bind fun r m₁ st₁ hr => (yields_popPair st₁.reliable).bind
    fun p m₂ st₂ hp => (yields_expectTable st₂.reliable).bind fun _ m' _ he => ?_
  subst he
  refine (yields_bindClosure rel st₂.reliable hp.1 (st₂.relies r hr)).bind fun r' m₃ st₃ hr' => ?_
  exact yields_tableSet rel st₃.reliable (st₃.relies p.1 hp.1) (st₃.relies p.2 hp.2) hr'

theorem yields_getField (rel : Reliance P) (hm : m.Reliable P) :
    Yields P getField m fun _ _ => True := by
  refine (yields_popPair hm).bind fun p m₁ st₁ hp => (yields_expectTable st₁.reliable).bind
    fun _ m' _ he => ?_
  subst he
  exact (yields_tableGet rel st₁.reliable hp.1).bind fun _ _ st₂ hr => yields_push st₂.reliable hr

theorem yields_pushHost (rel : Reliance P) (hm : m.Reliable P) {id : UInt16} :
    Yields P (pushHost id) m fun _ _ => True := by
  refine yields_get_bind ((yields_require hm).bind fun _ m' st _ =>
    yields_pushValue rel st.reliable fun c e hc he => ?_)
  rw [← Value.closure.inj hc] at he
  cases he

theorem yields_pushLambda (rel : Reliance P) (hm : m.Reliable P) {address : UInt16} :
    Yields P (pushLambda address) m fun _ _ => True := by
  refine yields_get_bind ((yields_arrayClone rel hm hm.locals).bind fun record m' st hr =>
    yields_pushValue rel st.reliable fun c e hc he => ?_)
  rw [← Value.closure.inj hc, Option.some.injEq] at he
  exact he ▸ hr.1

theorem yields_storeLocal (rel : Reliance P) (hm : m.Reliable P) {i : UInt16} :
    Yields P (storeLocal i) m fun _ _ => True := by
  refine (yields_pop hm).bind fun r m₁ st₁ hr => yields_get_bind ?_
  have hloc := st₁.reliable.locals
  refine (yields_touch rel st₁.reliable hloc).bind fun _ m' _ he => ?_
  subst he
  refine yields_get_bind ?_
  simp only
  split
  · exact (yields_modifyHeap (f := fun h => (h.arraySet m'.locals i.toNat r).2) rel st₁.reliable
      (evolves_arraySet rel st₁.reliable hloc hr)).imp fun _ _ _ _ => trivial
  · split
    · exact yields_arrayPush rel st₁.reliable hloc hr
    · exact yields_fail st₁.reliable

/-- Every other instruction works inside the call. -/
theorem yields_perform (rel : Reliance P) (hm : m.Reliable P) {host : UInt16 → Action F Unit}
    {op : Opcode} {operand : UInt16} (hop : op.switchesFrame = false) :
    Yields P (perform host op operand) m fun _ _ => True := by
  cases op with
  | call | ret0 | ret1 => cases hop
  | nop | done => exact yields_pure hm trivial
  | pushNil => exact yields_pushNil hm
  | dup => exact (yields_peek hm).bind fun _ _ st hr => yields_push st.reliable hr.2.1
  | pop => exact (yields_pop hm).bind fun _ _ st _ => yields_pure st.reliable trivial
  | add | sub | mul | div | mod | pow => exact yields_arithmetic rel hm
  | unm => exact yields_negate rel hm
  | logicAnd | logicOr => exact yields_logic rel hm
  | logicNot =>
    exact (yields_pop hm).bind fun _ _ st _ => yields_get_bind (yields_pushBool rel st.reliable)
  | bitAnd | bitOr | shiftLeft | shiftRight => exact yields_bitwise rel hm
  | bitNot =>
    exact (yields_pop hm).bind fun _ _ st₁ _ => (yields_integer st₁.reliable).bind
      fun _ _ st₂ _ => yields_pushInt rel st₂.reliable
  | eq | neq | gt | gte | lt | lte => exact yields_comparison rel hm
  | loadGlobal => exact yields_loadGlobal rel hm
  | storeGlobal => exact yields_storeGlobal rel hm
  | pushTable =>
    exact (yields_pushTable rel hm).bind fun _ _ st _ => yields_pure st.reliable trivial
  | putField => exact yields_putField rel hm
  | getField => exact yields_getField rel hm
  | pushFloat => exact yields_pushScalar rel hm (by simp)
  | pushInt => exact yields_pushInt rel hm
  | pushString => exact yields_pushString rel hm
  | pushCode =>
    refine yields_pushValue rel hm fun c e hc he => ?_
    rw [← Value.closure.inj hc] at he
    cases he
  | pushHost => exact yields_pushHost rel hm
  | pushLambda => exact yields_pushLambda rel hm
  | loadLocal => exact (yields_localAt rel hm).bind fun _ _ st hr => yields_push st.reliable hr
  | storeLocal => exact yields_storeLocal rel hm
  | jump => exact yields_jumpTo hm
  | jumpIfFalse | jumpIfTrue => exact yields_jumpIf hm

/-! ### Collections and faults -/

theorem ends_changeHeap {α : Type} {f : Heap → α × Heap} {E : Halt → Machine F → Prop} :
    Ends (changeHeap f) m (fun a m' => a = (f m.heap).1 ∧ m' = { m with heap := (f m.heap).2 }) E :=
  ends_iff.2 ⟨rfl, rfl⟩

theorem ends_onHeap {α : Type} {x : HeapM α} {Q : α → Heap → Prop} {E : OutOfMemory → Heap → Prop}
    (hx : Ends x m.heap Q E) : Ends (onHeap x) m (fun a m' => ∃ h, Q a h ∧ m' = { m with heap := h })
      fun _ m' => ∃ e h, E e h ∧ m' = { m with heap := h } := by
  rw [ends_iff, onHeap]
  simp only [detachHeap]
  cases ha : x m.heap with
  | ok a h => exact ⟨h, hx.of_ok ha, rfl⟩
  | error e h => exact ⟨e, h, hx.of_error ha, rfl⟩

/-- A collection needs room on the stack for the registers. -/
theorem collectGarbage_of_room (hroom : m.stack.hasRoom m.ambient.length = true) :
    ∃ log, collectGarbage m = .ok () { m with
      heap := (m.heap.collect (m.stack.slots.toList ++ m.ambient)).2, log } := by
  have hcollect : collectGarbage m = (require (m.stack.hasRoom m.ambient.length) .stack
      >>= fun _ => do
        let freed ← changeHeap fun h => h.collect (m.stack.slots.toList ++ m.ambient)
        emit (.collected freed.objects freed.segments (← get).heap.freeBytes)) m := rfl
  rw [hcollect, hroom]
  exact ⟨_, rfl⟩

/-- The roots of a collection are the stack and the registers. -/
theorem ends_collectGarbage : Ends collectGarbage m
    (fun _ m' => ∃ log, m' = { m with
      heap := (m.heap.collect (m.stack.slots.toList ++ m.ambient)).2, log })
    fun e m' => e ≠ .outOfFuel ∧ m' = m := by
  have require : Ends (require (m.stack.hasRoom m.ambient.length) .stack) m (fun _ m' => m' = m)
      fun e m' => e ≠ .outOfFuel ∧ m' = m := by
    cases m.stack.hasRoom m.ambient.length with
    | true => exact ends_pure rfl
    | false => exact ends_throw ⟨by simp, rfl⟩
  refine ends_get_bind (ends_get_bind (ends_bind require fun _ m' he => ?_))
  subst he
  refine ends_bind ends_changeHeap fun _ m₁ h₁ => ends_get_bind (ends_modify ?_)
  obtain ⟨-, rfl⟩ := h₁
  exact ⟨_, rfl⟩

theorem ends_orFail {α : Type} (o : Option α) (e : Fault) :
    Ends (orFail o e) m (fun a m' => m' = m ∧ o = some a) fun _ m' => m' = m := by
  cases o with
  | some a => exact ends_pure ⟨rfl, rfl⟩
  | none => exact ends_throw rfl

theorem ends_require_cases (c : Bool) (e : Fault) :
    Ends (require c e) m (fun _ m' => m' = m ∧ c = true) fun _ m' => m' = m := by
  cases c with
  | true => exact ends_pure ⟨rfl, rfl⟩
  | false => exact ends_throw rfl

theorem eq_error_of_attempt {α : Type} {x : Action F α} {e : Fault} {m m' : Machine F}
    (hx : attempt x m = .ok (.error e) m') : x m = .error (.fault e) m' := by
  rw [attempt] at hx
  split at hx
  · cases hx
  · next hs =>
    cases hx
    exact hs
  · cases hx

/-- A fault that is caught is an answer. Running out of fuel is not caught. -/
theorem ends_attempt {α : Type} {x : Action F α} {Q : α → Machine F → Prop}
    {E : Halt → Machine F → Prop} (hx : Ends x m Q E) :
    Ends (attempt x) m
      (fun a m' => (∃ v, a = .ok v ∧ Q v m') ∨ ∃ e, a = .error e ∧ E (.fault e) m')
      fun e m' => e = .outOfFuel ∧ E e m' := by
  rw [ends_iff, attempt]
  cases hs : x m with
  | ok a m' => exact .inl ⟨a, rfl, hx.of_ok hs⟩
  | error e m' =>
    have he := hx.of_error hs
    cases e with
    | fault e => exact .inr ⟨e, rfl, he⟩
    | outOfFuel => exact ⟨rfl, he⟩

end Machine

end SwarmVm
