import SwarmVm.Proofs.Machine.Instructions

/-!
# Opening and closing a call

A call is opened in two parts. First everything that can fail: the operands are checked and the
activation record and the bookkeeping are made, with the stack as it is. Then the operands are
replaced by the bookkeeping, which cannot fail any more. A return takes the bookkeeping apart again,
and gives back exactly the registers that it stands for.

## Main definitions

* `OperandStack.opened`, `Machine.withFrame` — the stack and the machine after a call is opened
* `Machine.Entered` — what opening a call does
* `Machine.returned` — the machine after a call is closed

## Main results

* `Machine.entered_enter` — opening a call
* `Machine.ends_leaveFrame` — closing one
-/

namespace SwarmVm

/-! ### The stack -/

namespace OperandStack

variable {s : OperandStack} {argc d i : Nat} {base locals address : Ref}

theorem depth_truncate (hd : d ≤ s.depth) : (s.truncate d).depth = d := by
  rw [depth, truncate, Array.take_eq_extract, Array.size_extract, Nat.sub_zero]
  exact Nat.min_eq_left hd

theorem getElem?_truncate (hi : i < d) : (s.truncate d).slots[i]? = s.slots[i]? := by
  rw [truncate, Array.take_eq_extract, Array.getElem?_extract]
  by_cases hs : i < s.slots.size
  · rw [if_pos (by omega), Nat.zero_add]
  · rw [if_neg (by omega), Array.getElem?_eq_none (Nat.le_of_not_lt hs)]

theorem mem_of_mem_truncate {r : Ref} (hr : r ∈ (s.truncate d).slots.toList) :
    r ∈ s.slots.toList := by
  rw [truncate, Array.take_eq_extract, Array.toList_extract] at hr
  exact List.mem_of_mem_drop (List.mem_of_mem_take hr)

/-- The lowest `d` entries of a stack, with another floor. -/
def cut (s : OperandStack) (d base : Nat) : OperandStack :=
  { s with slots := (s.truncate d).slots, base }

theorem depth_cut {b : Nat} (hd : d ≤ s.depth) : (s.cut d b).depth = d := depth_truncate hd

theorem pop_truncate (hd : d + 1 ≤ s.depth) :
    (s.truncate (d + 1)).slots.pop = (s.truncate d).slots := by
  have hsize := depth_truncate hd
  have hsize' := depth_truncate (s := s) (d := d) (by omega)
  rw [depth] at hsize hsize'
  refine Array.ext (by rw [Array.size_pop, hsize, hsize', Nat.add_sub_cancel]) fun i hi hi' => ?_
  refine Option.some.inj ?_
  rw [← Array.getElem?_eq_getElem hi, ← Array.getElem?_eq_getElem hi', Array.getElem?_pop,
    if_pos (by omega), getElem?_truncate (by omega), getElem?_truncate (by omega)]

/-- The stack after a pop, and what is taken off. -/
theorem pop_cut {b : Nat} (hd : d + 1 ≤ s.depth) (hb : b ≤ d) :
    (s.cut (d + 1) b).pop = .ok (s.slots.getD d 0, s.cut d b) := by
  rw [pop, depth_cut hd, if_neg (show ¬ d + 1 = (s.cut (d + 1) b).base from fun he => ?_)]
  · simp only [cut, pop_truncate hd, Nat.add_sub_cancel, Array.getD_eq_getD_getElem?,
      getElem?_truncate (Nat.lt_succ_self d)]
  · exact absurd (show d + 1 = b from he) (by omega)

/-- The stack with the operands of a call replaced by its bookkeeping. -/
def opened (s : OperandStack) (argc : Nat) (base locals address : Ref) : OperandStack where
  slots := (((s.truncate (s.depth - argc - 2)).slots.push base).push locals).push address
  capacity := s.capacity
  base := s.depth - argc - 2 + 3

theorem setBase_pushed : ({ s.truncate (s.depth - argc - 2) with
      slots := (((s.truncate (s.depth - argc - 2)).slots.push base).push locals).push address } :
      OperandStack).setBase (OperandStack.depth { s.truncate (s.depth - argc - 2) with
      slots := (((s.truncate (s.depth - argc - 2)).slots.push base).push locals).push address })
    = s.opened argc base locals address := by
  have hsize := depth_truncate (s := s) (d := s.depth - argc - 2) (by omega)
  rw [setBase, Nat.min_self, opened]
  congr 1
  rw [depth, Array.size_push, Array.size_push, Array.size_push]
  exact congrArg (· + 3) hsize

theorem depth_opened : (s.opened argc base locals address).depth = s.depth - argc - 2 + 3 := by
  have := depth_truncate (s := s) (d := s.depth - argc - 2) (by omega)
  rw [depth] at this
  rw [depth, opened, Array.size_push, Array.size_push, Array.size_push, this]

theorem getElem?_opened (hi : i < s.depth - argc - 2) :
    (s.opened argc base locals address).slots[i]? = s.slots[i]? := by
  have hsize := depth_truncate (s := s) (d := s.depth - argc - 2) (by omega)
  rw [depth] at hsize
  simp only [opened, Array.getElem?_push, Array.size_push, hsize]
  rw [if_neg (by omega), if_neg (by omega), if_neg (by omega), getElem?_truncate hi]

/-- The bookkeeping entries, from the bottom. -/
theorem entries_opened :
    (s.opened argc base locals address).slots[s.depth - argc - 2]? = some base
      ∧ (s.opened argc base locals address).slots[s.depth - argc - 2 + 1]? = some locals
      ∧ (s.opened argc base locals address).slots[s.depth - argc - 2 + 2]? = some address := by
  have hsize := depth_truncate (s := s) (d := s.depth - argc - 2) (by omega)
  rw [depth] at hsize
  simp only [opened, Array.getElem?_push, Array.size_push, hsize]
  refine ⟨?_, ?_, ?_⟩
  · rw [if_neg (by omega), if_neg (by omega), if_pos trivial]
  · rw [if_neg (by omega), if_pos trivial]
  · rw [if_pos trivial]

theorem mem_opened {r : Ref} (hr : r ∈ (s.opened argc base locals address).slots.toList) :
    r ∈ s.slots.toList ∨ r = base ∨ r = locals ∨ r = address := by
  rw [opened, Array.toList_push, Array.toList_push, Array.toList_push] at hr
  simp only [List.mem_append, List.mem_singleton] at hr
  rcases hr with ((hr | hr) | hr) | hr
  · exact .inl (mem_of_mem_truncate hr)
  · exact .inr (.inl hr)
  · exact .inr (.inr (.inl hr))
  · exact .inr (.inr (.inr hr))

end OperandStack

namespace Machine

open Heap (Reliance Evolves)

variable {F α β : Type} {m m' : Machine F} {P : Heap → Ref → Prop}

/-! ### Actions that do not touch the registers -/

/-- The action changes the heap at most. -/
def OnlyHeap (x : Action F α) : Prop := ∀ m, Ends x m
  (fun _ m' => m' = { m with heap := m'.heap, strayed := m'.strayed })
  fun _ m' => m' = { m with heap := m'.heap, strayed := m'.strayed }

section OnlyHeap

variable {x : Action F α} {R : α → Machine F → Prop}

theorem onlyHeap_pure (a : α) : OnlyHeap (pure a : Action F α) := fun _ => ends_pure rfl

theorem onlyHeap_fail (e : Fault) : OnlyHeap (fail e : Action F α) := fun _ => ends_throw rfl

theorem OnlyHeap.bind {f : α → Action F β} (hx : OnlyHeap x) (hf : ∀ a, OnlyHeap (f a)) :
    OnlyHeap (x >>= f) := by
  intro m
  refine ends_bind (hx m) fun a m' h => (hf a m').imp (fun _ m'' h' => ?_) fun _ m'' h' => ?_
  · rw [h', h]
  · rw [h', h]

theorem onlyHeap_get_bind {f : Machine F → Action F β} (hf : ∀ m, OnlyHeap (f m)) :
    OnlyHeap (get >>= f) := fun m => ends_get_bind (hf m m)

theorem onlyHeap_orFail (o : Option α) (e : Fault) : OnlyHeap (orFail o e : Action F α) := by
  cases o with
  | some a => exact onlyHeap_pure a
  | none => exact onlyHeap_fail e

theorem onlyHeap_require (c : Bool) (e : Fault) : OnlyHeap (require c e : Action F Unit) := by
  cases c with
  | true => exact onlyHeap_pure ()
  | false => exact onlyHeap_fail e

theorem onlyHeap_touch (t : Ref) : OnlyHeap (touch t : Action F Unit) := fun _ => ends_modify rfl

theorem onlyHeap_onHeap (x : HeapM α) : OnlyHeap (onHeap x : Action F α) := by
  intro m
  rw [ends_iff, onHeap]
  simp only [detachHeap]
  cases x m.heap <;> rfl

theorem onlyHeap_peek (n : Nat) : OnlyHeap (peek n : Action F Ref) := by
  intro m
  rw [ends_iff, peek]
  cases m.stack.peek n <;> rfl

theorem onlyHeap_arrayClone (a : Ref) : OnlyHeap (arrayClone a : Action F Ref) :=
  (onlyHeap_touch a).bind fun _ => onlyHeap_onHeap _

theorem onlyHeap_arrayPush (a r : Ref) : OnlyHeap (arrayPush a r : Action F Unit) :=
  (onlyHeap_touch a).bind fun _ => onlyHeap_onHeap _

theorem onlyHeap_alloc (v : Value) : OnlyHeap (alloc v : Action F Ref) := by
  cases v with
  | nil => exact onlyHeap_get_bind fun m => onlyHeap_pure m.nil
  | table t => exact onlyHeap_fail _
  | _ => exact onlyHeap_onHeap _

theorem onlyHeap_argumentCount (r : Ref) : OnlyHeap (argumentCount r : Action F Nat) :=
  onlyHeap_get_bind fun _ => (onlyHeap_orFail _ _).bind fun _ => (onlyHeap_require _ _).bind
    fun _ => onlyHeap_get_bind fun _ => (onlyHeap_require _ _).bind fun _ => onlyHeap_pure _

theorem onlyHeap_checkTarget (t : Target) : OnlyHeap (checkTarget t : Action F Unit) := by
  cases t <;> exact onlyHeap_get_bind fun _ => onlyHeap_require _ _

theorem onlyHeap_pushArguments (record : Ref) : ∀ i n,
    OnlyHeap (pushArguments record i n : Action F Unit)
  | _, 0 => onlyHeap_pure ()
  | i, n + 1 => (onlyHeap_peek i).bind fun r => (onlyHeap_arrayPush record r).bind fun _ =>
    onlyHeap_pushArguments record (i + 1) n

/-- `m'` comes from `m` by work inside the current call that does not touch its registers. -/
structure Still (P : Heap → Ref → Prop) (m m' : Machine F) : Prop extends Steady P m m' where
  /-- The stack is the same, -/
  stack : m'.stack = m.stack
  /-- and the program counter. -/
  pc : m'.pc = m.pc

theorem Still.refl (hm : m.Reliable P) : Still P m m := ⟨.refl hm, rfl, rfl⟩

theorem Still.trans {m'' : Machine F} (st : Still P m m') (st' : Still P m' m'') : Still P m m'' :=
  ⟨st.toSteady.trans st'.toSteady, st'.stack.trans st.stack, st'.pc.trans st.pc⟩

/-- A steady action of this kind leaves the registers alone, whether it answers or faults. -/
theorem Yields.still (hx : Yields P x m R) (ho : OnlyHeap x) : Ends x m
    (fun a m' => Still P m m' ∧ R a m') fun e m' => e ≠ .outOfFuel ∧ Still P m m' := by
  have still : ∀ {m'}, Steady P m m' → m' = { m with heap := m'.heap, strayed := m'.strayed } →
      Still P m m' := fun st he => ⟨st, by rw [he], by rw [he]⟩
  constructor
  · intro a m' hs
    obtain ⟨hst, hR⟩ := hx.of_ok hs
    exact ⟨still hst ((ho m).of_ok hs), hR⟩
  · intro e m' hs
    obtain ⟨hne, hst⟩ := hx.of_error hs
    exact ⟨hne, still hst ((ho m).of_error hs)⟩

/-- It may be followed by another one. -/
theorem Yields.still_bind {m₀ : Machine F} {f : α → Action F β} {Q : β → Machine F → Prop}
    (hx : Yields P x m R) (ho : OnlyHeap x) (st : Still P m₀ m)
    (hf : ∀ a m', Still P m₀ m' → Still P m m' → R a m' →
      Ends (f a) m' Q fun e m'' => e ≠ .outOfFuel ∧ Still P m₀ m'') :
    Ends (x >>= f) m Q fun e m'' => e ≠ .outOfFuel ∧ Still P m₀ m'' :=
  SwarmVm.ends_bind ((hx.still ho).imp (fun _ _ => id) fun _ _ h => ⟨h.1, st.trans h.2⟩)
    fun a m' h => hf a m' (st.trans h.1) h.1 h.2

end OnlyHeap

/-! ### Opening a call -/

/-- The machine with a call opened. -/
def withFrame (m : Machine F) (argc : Nat) (record base address : Ref) : Machine F :=
  { m with
    stack := m.stack.opened argc base m.locals address
    locals := record
    frameDepth := m.frameDepth + 1 }

theorem ends_push {r : Ref} {E : Halt → Machine F → Prop}
    (hroom : m.stack.depth < m.stack.capacity) : Ends (push r) m
      (fun _ m' => m' = { m with stack := { m.stack with slots := m.stack.slots.push r } }) E := by
  rw [ends_iff, push, OperandStack.push]
  simp only [hroom, if_true]

/-- Once there is room for the bookkeeping, a call is opened. -/
theorem ends_openFrame {argc : Nat} {record base address : Ref} {E : Halt → Machine F → Prop}
    (hargs : argc + 2 ≤ m.stack.frameLength)
    (hroom : m.stack.depth - argc - 2 + 3 ≤ m.stack.capacity) :
    Ends (openFrame argc record base address) m
      (fun _ m' => m' = m.withFrame argc record base address) E := by
  have hframe : m.stack.frameLength = m.stack.depth - m.stack.base := rfl
  have hsize := OperandStack.depth_truncate (s := m.stack) (d := m.stack.depth - argc - 2)
    (by omega)
  have hdepth : ∀ s : OperandStack, s.depth = s.slots.size := fun _ => rfl
  rw [hdepth] at hsize
  refine ends_bind (ends_modify (Q := fun _ m' => m' = { m with
    stack := m.stack.truncate (m.stack.depth - argc - 2) }) rfl) fun _ m₁ h₁ => ?_
  refine ends_bind (ends_push ?_) fun _ m₂ h₂ => ends_get_bind ?_
  · rw [h₁, hdepth, hsize]
    change _ < m.stack.capacity
    omega
  refine ends_bind (ends_push ?_) fun _ m₃ h₃ => ends_bind (ends_push ?_) fun _ m₄ h₄ => ?_
  · rw [h₂, h₁, hdepth]
    simp only [Array.size_push, hsize]
    change _ < m.stack.capacity
    omega
  · rw [h₃, h₂, h₁, hdepth]
    simp only [Array.size_push, hsize]
    change _ < m.stack.capacity
    omega
  subst h₁ h₂ h₃ h₄
  exact ends_modify (congrArg (fun s : OperandStack => { m with
    stack := s, locals := record, frameDepth := m.frameDepth + 1 }) OperandStack.setBase_pushed)

/-- What is known when a call is opened: `m₁` is the machine `m` with the activation record and the
bookkeeping made, and its stack is still that of `m`. -/
structure Entered (P : Heap → Ref → Prop) (m : Machine F) (target : Target) (argc : Nat)
    (record base address : Ref) (m₁ : Machine F) : Prop where
  /-- Making them is work inside the caller. -/
  still : Still P m m₁
  /-- The closure on top of the stack leads to the target. -/
  closure : ∃ c, m.value (m.stack.slots.getD (m.stack.depth - 1) 0) = .closure c
    ∧ c.target = target
  /-- Below it is the number of arguments, -/
  count : ∃ i : Int16, m.value (m.stack.slots.getD (m.stack.depth - 2) 0) = .int i
    ∧ i.toInt = argc
  /-- and below that the arguments. -/
  operands : argc + 2 ≤ m.stack.frameLength
  /-- There is room for the bookkeeping. -/
  room : m.stack.depth - argc - 2 + 3 ≤ m.stack.capacity
  /-- The activation record is an array that was made for the call. -/
  record : P m₁.heap record ∧ m₁.heap.IsTable record
  /-- The bookkeeping says where the floor of the caller is, -/
  base : P m₁.heap base ∧ m₁.heap.value base = .int (Int16.ofNat m.stack.base)
  /-- and where it goes on. -/
  address : P m₁.heap address ∧ m₁.heap.value address = .int m.pc.toInt16

theorem yields_allocInt (rel : Reliance P) (hm : m.Reliable P) {i : Int16} :
    Yields P (alloc (.int i)) m fun r m' => P m'.heap r ∧ m'.heap.value r = .int i := by
  refine yields_onHeap (R := fun r h => P h r ∧ h.value r = .int i) rel hm
    ((Heap.newObject_allocValue hm.wellFormed (by simp) (by simp)).imp
      (fun _ _ n => ⟨n.1.evolves, rel.new hm.nil n.1, n.2⟩) ?_)
  rintro _ _ rfl
  exact .refl hm.wellFormed

theorem yields_pushArguments (rel : Reliance P) (hm : m.Reliable P) {record : Ref}
    (hr : P m.heap record) {i n : Nat} :
    Yields P (pushArguments record i n) m fun _ _ => True := by
  induction n generalizing m i with
  | zero => exact yields_pure hm trivial
  | succ n ih =>
    refine (yields_peek hm).bind fun r m₁ st₁ h₁ => ?_
    refine (yields_arrayPush rel st₁.reliable (st₁.relies record hr) h₁.2.1).bind
      fun _ m₂ st₂ _ => ?_
    exact ih st₂.reliable (st₂.relies record (st₁.relies record hr))

theorem asInt?_eq_some {v : Value} {i : Int16} (hi : v.asInt? = some i) : v = .int i := by
  cases v <;> simp_all [Value.asInt?]

/-- The number of arguments is read off the stack, and they are there. -/
theorem yields_argumentCount (hm : m.Reliable P) {r : Ref} :
    Yields P (argumentCount r) m fun argc m' => m' = m
      ∧ (∃ i : Int16, m.value r = .int i ∧ i.toInt = argc) ∧ argc + 2 ≤ m.stack.frameLength := by
  refine yields_get_bind ((yields_orFail hm).bind fun i m' _ h => ?_)
  obtain ⟨rfl, hi⟩ := h
  refine (yields_require hm).bind fun _ m' _ h => ?_
  obtain ⟨rfl, hpos⟩ := h
  refine yields_get_bind ((yields_require hm).bind fun _ m' _ h => ?_)
  obtain ⟨rfl, hlen⟩ := h
  have hcount : i.toInt = i.toInt.toNat := (Int.toNat_of_nonneg (of_decide_eq_true hpos)).symm
  exact yields_pure hm ⟨rfl, ⟨i, asInt?_eq_some hi, hcount⟩, of_decide_eq_true hlen⟩

theorem yields_checkTarget (hm : m.Reliable P) {t : Target} :
    Yields P (checkTarget t) m fun _ m' => m' = m := by
  cases t <;> exact yields_get_bind ((yields_require hm).imp fun _ _ _ h => h.1)

/-- A steady action, followed by one that need not be. What is known of the machine in between, and
what is known when it faults, is kept by everything steady. -/
theorem Yields.ends_bind {x : Action F α} {f : α → Action F β} {R : α → Machine F → Prop}
    {Q : β → Machine F → Prop} {K : Machine F → Prop} (hK : ∀ {m'}, Steady P m m' → K m')
    (hx : Yields P x m R) (hf : ∀ a m', K m' → Steady P m m' → R a m' →
      Ends (f a) m' Q fun e m'' => e ≠ .outOfFuel ∧ K m'') :
    Ends (x >>= f) m Q fun e m'' => e ≠ .outOfFuel ∧ K m'' :=
  SwarmVm.ends_bind (Ends.imp hx (fun _ _ => id) fun _ _ h => ⟨h.1, hK h.2⟩)
    fun a m' h => hf a m' (hK h.1) h.1 h.2

/-- A call is opened, or nothing but the heap has changed. -/
theorem entered_enter (rel : Reliance P) (hm : m.Reliable P) : Ends enter m
    (fun target m' => ∃ argc record base address m₁,
      Entered P m target argc record base address m₁
        ∧ m' = m₁.withFrame argc record base address)
    fun e m' => e ≠ .outOfFuel ∧ Still P m m' := by
  have hrefl := Still.refl hm
  refine (yields_peek hm).still_bind (onlyHeap_peek _) hrefl fun closureRef m' _ _ h => ?_
  obtain ⟨rfl, hc, hclosureRef⟩ := h
  refine (yields_peek hm).still_bind (onlyHeap_peek _) hrefl fun countRef m' _ _ h => ?_
  obtain ⟨rfl, _, hcountRef⟩ := h
  refine ends_get_bind ((yields_orFail hm).still_bind (onlyHeap_orFail _ _) hrefl
    fun closure m' _ _ h => ?_)
  obtain ⟨rfl, hclosure⟩ := h
  have hclosure := asClosure?_eq_some hclosure
  refine (yields_argumentCount hm).still_bind (onlyHeap_argumentCount _) hrefl
    fun argc m' _ _ h => ?_
  obtain ⟨rfl, hcount, hargs⟩ := h
  refine (yields_checkTarget hm).still_bind (onlyHeap_checkTarget _) hrefl fun _ m' _ _ h => ?_
  subst h
  refine ends_get_bind ((yields_require hm).still_bind (onlyHeap_require _ _) hrefl
    fun _ m₀ _ _ h => ?_)
  obtain ⟨rfl, hroom⟩ := h
  have hcap : P m₀.heap (closure.captured.getD m₀.defaultRecord) := by
    cases he : closure.captured with
    | none => exact hm.defaultRecord
    | some e => exact rel.pointsTo hc (.captured hclosure he)
  refine ends_get_bind ((yields_arrayClone rel hm hcap).still_bind (onlyHeap_arrayClone _) hrefl
    fun record m₁ st₁ _ h₁ => ?_)
  refine (yields_pushArguments rel st₁.reliable h₁.1).still_bind (onlyHeap_pushArguments _ _ _) st₁
    fun _ m₂ st₂ st₂' _ => ends_get_bind ?_
  refine (yields_allocInt rel st₂.reliable).still_bind (onlyHeap_alloc _) st₂
    fun base m₃ st₃ st₃' h₃ => ends_get_bind ?_
  refine (yields_allocInt rel st₃.reliable).still_bind (onlyHeap_alloc _) st₃
    fun address m₄ st₄ st₄' h₄ => ?_
  have hroom' : m₀.stack.depth - argc - 2 + 3 ≤ m₀.stack.capacity := by
    have := hm.ceiling
    rw [Bool.or_eq_true, OperandStack.hasRoom, decide_eq_true_eq, decide_eq_true_eq] at hroom
    rw [OperandStack.frameLength] at hargs
    omega
  refine ends_bind (ends_openFrame (by rw [st₄.stack]; exact hargs)
    (by rw [st₄.stack]; exact hroom')) fun _ m₅ h₅ =>
      ends_pure ⟨argc, record, base, address, m₄, ?_, h₅⟩
  have hrecord₂ := st₂'.relies record h₁.1
  exact {
    still := st₄
    closure := ⟨closure, hclosureRef ▸ hclosure, rfl⟩
    count := by
      rw [show m₀.stack.depth - 2 = m₀.stack.depth - 1 - 1 by omega, ← hcountRef]
      exact hcount
    operands := hargs
    room := hroom'
    record := ⟨st₄'.relies record (st₃'.relies record hrecord₂),
      st₄'.keeps.isTable (st₃'.keeps.isTable (st₂'.keeps.isTable h₁.2))⟩
    base := ⟨st₄'.relies base h₃.1, st₄'.keeps.value_int (by rw [h₃.2, st₂.stack])⟩
    address := ⟨h₄.1, by rw [h₄.2, st₃.pc]⟩ }

/-! ### Closing a call -/

section Return

variable {E : Halt → Machine F → Prop} {s : OperandStack} {d b : Nat}

theorem ends_require {c : Bool} {e : Fault} (hc : c = true) :
    Ends (require c e) m (fun _ m' => m' = m) E := by
  rw [hc]
  exact ends_pure rfl

/-- The machine with another stack. -/
def withStack (m : Machine F) (s : OperandStack) : Machine F := { m with stack := s }

theorem ends_pop (hd : d + 1 ≤ s.depth) (hb : b ≤ d) :
    Ends pop (m.withStack (s.cut (d + 1) b))
      (fun r m' => r = s.slots.getD d 0 ∧ m' = m.withStack (s.cut d b)) E := by
  rw [ends_iff, pop, show (m.withStack (s.cut (d + 1) b)).stack = s.cut (d + 1) b from rfl,
    OperandStack.pop_cut hd hb]
  exact ⟨rfl, rfl⟩

theorem ends_popInt {i : Int16} (hd : d + 1 ≤ s.depth) (hb : b ≤ d)
    (hi : m.value (s.slots.getD d 0) = .int i) :
    Ends popInt (m.withStack (s.cut (d + 1) b))
      (fun a m' => a = i ∧ m' = m.withStack (s.cut d b)) E := by
  refine ends_bind (ends_pop hd hb) fun r m' h => ends_get_bind ?_
  obtain ⟨rfl, rfl⟩ := h
  have hv : (m.withStack (s.cut d b)).value (s.slots.getD d 0) = .int i := hi
  rw [hv]
  exact ends_pure ⟨rfl, rfl⟩

theorem ends_arrayClear (wf : m.heap.WellFormed) {a : Ref} (ha : m.heap.isValid a = true) :
    Ends (arrayClear a) m (fun _ m' => m' = { m with heap := m.heap.arrayClear a }) E := by
  refine ends_bind (Q := fun _ m' => m' = m) ?_ fun _ m' he => ?_
  · rw [ends_iff, touch_eq wf fun _ => ha]
  subst he
  refine ends_bind (Q := fun _ m'' => m'' = m') ?_ fun _ m'' he => ?_
  · rw [ends_iff, touchSlot_eq ha]
  subst he
  exact ends_iff.2 rfl

/-- The machine after a return to a caller with the given locals and floor, which goes on at the
given address. -/
def returned (m : Machine F) (d : Nat) (locals : Ref) (base address : Int16) (result : Option Ref) :
    Machine F :=
  { m with
    heap := m.heap.arrayClear m.locals
    stack := { m.stack with
      slots := (m.stack.truncate d).slots.push (result.getD m.nil)
      base := min base.toUInt16.toNat d }
    pc := address.toUInt16
    locals := locals
    frameDepth := m.frameDepth - 1 }

/-- A return takes the registers of the caller from the bookkeeping of the call. -/
theorem ends_leaveFrame {i j : Int16} {base locals address : Ref} {result : Option Ref}
    (wf : m.heap.WellFormed) (hopen : 0 < m.frameDepth) (hbase : m.stack.base = d + 3)
    (floor : m.stack.base ≤ m.stack.depth) (ceiling : m.stack.depth ≤ m.stack.capacity)
    (hlocals : m.heap.isValid m.locals = true)
    (hb : m.stack.slots[d]? = some base) (hi : m.value base = .int i)
    (hl : m.stack.slots[d + 1]? = some locals)
    (ha : m.stack.slots[d + 2]? = some address) (hj : m.value address = .int j) :
    Ends (leaveFrame result) m (fun _ m' => m' = m.returned d locals i j result) E := by
  have hgetD : ∀ {k r}, m.stack.slots[k]? = some r → m.stack.slots.getD k 0 = r := by
    intro k r h
    rw [Array.getD_eq_getD_getElem?, h, Option.getD_some]
  refine ends_get_bind (ends_bind (ends_require (decide_eq_true hopen)) fun _ m' he => ?_)
  subst he
  refine ends_get_bind (ends_bind (ends_require (decide_eq_true (by omega))) fun _ m' he => ?_)
  subst he
  have hcut : (m'.stack.truncate m'.stack.base).setBase (m'.stack.base - 3)
      = m'.stack.cut (d + 3) d := by
    have hdepth := OperandStack.depth_truncate floor
    rw [OperandStack.setBase, hdepth, hbase, Nat.add_sub_cancel, Nat.min_eq_left (by omega)]
    rfl
  refine ends_bind (ends_modify (Q := fun _ m₁ => m₁ = m'.withStack (m'.stack.cut (d + 3) d))
    (by rw [withStack, ← hcut])) fun _ m₁ h₁ => ?_
  subst h₁
  have hd : d + 3 ≤ m'.stack.depth := by omega
  refine ends_bind (ends_popInt (d := d + 2) (by omega) (by omega) (by rw [hgetD ha]; exact hj))
    fun j m₂ h₂ => ?_
  obtain ⟨rfl, rfl⟩ := h₂
  refine ends_bind (ends_pop (d := d + 1) (by omega) (by omega)) fun _ m₃ h₃ => ?_
  obtain ⟨rfl, rfl⟩ := h₃
  refine ends_bind (ends_popInt (d := d) (by omega) (by omega) (by rw [hgetD hb]; exact hi))
    fun i m₄ h₄ => ends_get_bind ?_
  obtain ⟨rfl, rfl⟩ := h₄
  refine ends_bind (ends_arrayClear (m := m'.withStack (m'.stack.cut d d)) wf hlocals)
    fun _ m₅ h₅ => ?_
  subst h₅
  have hset : (m'.stack.cut d d).setBase i.toUInt16.toNat
      = m'.stack.cut d (min i.toUInt16.toNat d) := by
    rw [OperandStack.setBase, OperandStack.depth_cut (by omega)]
    rfl
  refine ends_bind (ends_modify (Q := fun _ m₆ => m₆ = { m' with
      heap := m'.heap.arrayClear m'.locals
      stack := m'.stack.cut d (min i.toUInt16.toNat d)
      pc := j.toUInt16
      locals := locals
      frameDepth := m'.frameDepth - 1 }) ?_) fun _ m₆ h₆ => ends_get_bind ?_
  · rw [← hset, ← hgetD hl]
    rfl
  · subst h₆
    refine Ends.imp (ends_push ?_) (fun _ m₇ h₇ => h₇) fun _ _ => id
    rw [OperandStack.depth_cut (by omega)]
    exact Nat.lt_of_lt_of_le (by omega) ceiling

end Return

end Machine

end SwarmVm
