import SwarmVm.Proofs.Heap.Sequences
import SwarmVm.Proofs.Machine.Lifetime
import SwarmVm.Proofs.Machine.Sheltered

/-!
# Activation records

A call starts with a new activation record: a copy of the record that its closure captured, or of
the default record, with the arguments after it, the first one first. Opening a call alters no
object that is there, so the record of a call is its own, and nobody else's.

From this it follows that calls leave every array alone that is looked after (`Wards`).
Instructions and host functions do as long as the locals are others, and inside a call they are,
because they are new. The chain of the callers that wait (`Frames`) is kept with the same addition:
all their locals are others, except that those of the first caller may be anything, since it does
not go on before the call has returned.

## Main definitions

* `Machine.arguments` — the arguments of the call whose operands are on the stack
* `Machine.Begun` — the activation record of a call
* `Machine.Strides` — what an instruction can do
* `Machine.InRecord` — a machine inside a call that leaves an array alone

## Main results

* `Machine.begun_enter` — what a call starts with
* `Machine.performs_instruction` — instructions
* `Machine.shelters_callWith` — calls from host code leave an array alone
-/

namespace SwarmVm

namespace Machine

open Heap (Holds Mints slotRef reliance_arbitrary)

variable {F α : Type} {entry m m' m'' : Machine F} {w : Ward}

/-! ### Machines with new objects -/

/-- `m'` is the machine `m` with new objects, which capture nothing, and no object of `m` is
altered. -/
def Grown (m m' : Machine F) : Prop :=
  ∃ h, m.heap.Grows h ∧ Mints ∅ m.heap h ∧ m' = { m with heap := h }

namespace Grown

theorem refl (wf : m.heap.WellFormed) : Grown m m := ⟨m.heap, .refl wf, .refl _, rfl⟩

theorem trans (g : Grown m m') (g' : Grown m' m'') : Grown m m'' := by
  obtain ⟨h, hg, mi, rfl⟩ := g
  obtain ⟨h', hg', mi', rfl⟩ := g'
  exact ⟨h', hg.trans hg', mi.trans mi', rfl⟩

theorem grows (g : Grown m m') : m.heap.Grows m'.heap := by
  obtain ⟨h, hg, -, rfl⟩ := g
  exact hg

theorem mints (g : Grown m m') : Mints ∅ m.heap m'.heap := by
  obtain ⟨h, -, mi, rfl⟩ := g
  exact mi

theorem stack (g : Grown m m') : m'.stack = m.stack := by
  obtain ⟨h, -, -, rfl⟩ := g
  rfl

theorem sound (g : Grown m m') (hm : m.Sound) : m'.Sound := by
  obtain ⟨h, hg, -, rfl⟩ := g
  exact ⟨hg.wellFormed, hg.tidy hm.tidy, hm.floor, hm.ceiling⟩

end Grown

theorem ends_peek (k : Nat) : Ends (peek k) m
    (fun r m' => m' = m ∧ r = m.stack.slots.getD (m.stack.depth - 1 - k) 0) fun _ m' => m' = m := by
  rw [ends_iff, peek, OperandStack.peek]
  by_cases hk : k < m.stack.frameLength
  · simp only [hk, if_true, and_self]
  · simp only [hk, if_false]

/-- A copy of an array is a new object. -/
theorem ends_arrayClone (hm : m.Sound) (a : Ref) : Ends (arrayClone a) m
    (fun r m' => Grown m m' ∧ m.heap.isValid r = false
      ∧ m'.heap.Holds r (m.heap.arrayElements a)) fun _ m' => Grown m m' := by
  have wf := hm.wellFormed
  have clone := (((Heap.holds_arrayClone wf a).and (Heap.spares_arrayClone wf a)).and
    (Heap.newObject_arrayClone (A := Set.univ) (a := a) wf fun _ _ => Set.mem_univ _)).and
    (Heap.mints_arrayClone (S := ∅) wf a)
  refine ends_bind (Q := fun _ m' => m' = m) ?_ fun _ m' he => ?_
  · rw [ends_iff, touch_eq wf (reliance_arbitrary.table hm.tidy)]
  subst he
  refine (ends_onHeap clone).imp ?_ ?_
  · rintro r _ ⟨h, ⟨⟨⟨hl, sp⟩, n, -⟩, mi, -⟩, rfl⟩
    exact ⟨⟨h, ⟨n.evolves.wellFormed, n.evolves.tidy, sp⟩, mi, rfl⟩, n.free, hl⟩
  · rintro _ _ ⟨_, h, ⟨⟨⟨-, sp⟩, ev⟩, mi⟩, rfl⟩
    exact ⟨h, ⟨ev.wellFormed, ev.tidy, sp⟩, mi, rfl⟩

theorem ends_allocInt (wf : m.heap.WellFormed) (i : Int16) :
    Ends (alloc (.int i)) m (fun _ m' => Grown m m') fun _ m' => Grown m m' := by
  have mints : Ends (Heap.allocValue (.int i)) m.heap (fun _ h => Mints ∅ m.heap h) _ :=
    Heap.mints_allocValue wf fun a ha => by cases ha
  refine (ends_onHeap ((Heap.grows_allocValue (v := .int i) wf (by simp)).and mints)).imp ?_ ?_
  · rintro _ _ ⟨h, ⟨⟨g, -⟩, mi⟩, rfl⟩
    exact ⟨h, g, mi, rfl⟩
  · rintro _ _ ⟨_, _, ⟨rfl, -⟩, rfl⟩
    exact .refl wf

/-! ### Arguments -/

/-- The arguments of a call with `argc` of them, whose operands are on the stack. They are below
the closure and their number, the first one uppermost. -/
def arguments (m : Machine F) (argc : Nat) : List Ref :=
  (List.range argc).map fun k => m.stack.slots.getD (m.stack.depth - 1 - (2 + k)) 0

/-- An argument is appended to a record that was made for the call. -/
theorem ends_arrayPush (hm : m.Sound) {record : Ref} {l : List Ref}
    (free : m.heap.isValid record = false) {m₁ : Machine F} (g : Grown m m₁)
    (hl : m₁.heap.Holds record l) (r : Ref) : Ends (arrayPush record r) m₁
      (fun _ m' => Grown m m' ∧ m'.heap.Holds record (l ++ [slotRef r]))
      fun _ m' => Grown m m' := by
  have wf := (g.sound hm).wellFormed
  have push := (((Heap.holds_arrayPush wf hl r).and (Heap.spares_arrayPush wf
    (fun _ => hl.isValid) r)).and (Heap.evolves_arrayPush (A := Set.univ) wf (fun _ => hl.isValid)
    (Set.mem_univ _))).and (Heap.sameObjects_arrayPush wf (fun _ => hl.isValid) r)
  refine ends_bind (Q := fun _ m' => m' = m₁) ?_ fun _ m' he => ?_
  · rw [ends_iff, touch_eq wf fun _ => hl.isValid]
  subst he
  obtain ⟨h₁, hg, mi, rfl⟩ := g
  refine (ends_onHeap push).imp ?_ ?_
  · rintro _ _ ⟨h, ⟨⟨⟨hl', sp⟩, ev⟩, o⟩, rfl⟩
    exact ⟨⟨h, ⟨ev.wellFormed, fun ht => ev.tidy (hg.tidy ht), hg.spares.alter sp free⟩,
      mi.trans o.resembles.mints, rfl⟩, hl'⟩
  · rintro _ _ ⟨_, _, ⟨-, rfl⟩, rfl⟩
    exact ⟨_, hg, mi, rfl⟩

/-- The arguments are appended one after the other. -/
theorem ends_pushArguments (hm : m.Sound) {record : Ref} (free : m.heap.isValid record = false)
    (i n : Nat) {l : List Ref} {m₁ : Machine F} (g : Grown m m₁) (hl : m₁.heap.Holds record l) :
    Ends (pushArguments record i n) m₁
      (fun _ m' => Grown m m' ∧ m'.heap.Holds record (l ++ ((List.range n).map fun k =>
        m.stack.slots.getD (m.stack.depth - 1 - (i + k)) 0).map slotRef))
      fun _ m' => Grown m m' := by
  induction n generalizing i l m₁ with
  | zero => exact ends_pure ⟨g, by simpa using hl⟩
  | succ n ih =>
    refine ends_bind ((ends_peek i).imp (fun _ _ => id) fun _ _ he => he ▸ g) fun r m' h => ?_
    obtain ⟨rfl, hr⟩ := h
    rw [g.stack] at hr
    refine ends_bind (ends_arrayPush hm free g hl r) fun _ m₂ h₂ => ?_
    refine (ih (i + 1) h₂.1 h₂.2).imp (fun _ m₃ h₃ => ⟨h₃.1, ?_⟩) fun _ _ => id
    have hshift : ((fun k => m.stack.slots.getD (m.stack.depth - 1 - (i + k)) 0) ∘ Nat.succ)
        = fun k => m.stack.slots.getD (m.stack.depth - 1 - (i + 1 + k)) 0 := by
      funext k
      rw [Function.comp_apply, Nat.succ_eq_one_add, Nat.add_assoc]
    rw [List.range_succ_eq_map, List.map_cons, List.map_map, hshift, List.map_cons, Nat.add_zero,
      ← hr, ← List.singleton_append, ← List.append_assoc]
    exact h₃.2

/-! ### Opening a call -/

/-- `m'` comes from `m` by opening a call of the closure `c` with `argc` arguments. -/
structure Begun (m : Machine F) (c : Closure) (argc : Nat) (m' : Machine F) : Prop where
  /-- No object is altered. -/
  grows : m.heap.Grows m'.heap
  /-- No closure is made. -/
  mints : Mints ∅ m.heap m'.heap
  /-- The objects of the machine are the same. -/
  core : SameCore m m'
  /-- The activation record is new. -/
  fresh : m.heap.isValid m'.locals = false
  /-- It holds what the closure captured, and then the arguments. -/
  holds : m'.heap.Holds m'.locals (m.heap.arrayElements (c.captured.getD m.defaultRecord)
    ++ (m.arguments argc).map slotRef)

theorem ends_argumentCount (r : Ref) : Ends (argumentCount r) m
    (fun argc m' => m' = m ∧ (∃ i : Int16, m.value r = .int i ∧ i.toInt = argc)
      ∧ argc + 2 ≤ m.stack.frameLength) fun _ m' => m' = m := by
  refine ends_get_bind (ends_bind (ends_orFail _ _) fun i m' h => ?_)
  obtain ⟨rfl, hi⟩ := h
  refine ends_bind (ends_require_cases _ _) fun _ m' h => ?_
  obtain ⟨rfl, hpos⟩ := h
  refine ends_get_bind (ends_bind (ends_require_cases _ _) fun _ m' h => ?_)
  obtain ⟨rfl, hlen⟩ := h
  have hcount : i.toInt = i.toInt.toNat := (Int.toNat_of_nonneg (of_decide_eq_true hpos)).symm
  exact ends_pure ⟨rfl, ⟨i, asInt?_eq_some hi, hcount⟩, of_decide_eq_true hlen⟩

theorem ends_checkTarget (t : Target) :
    Ends (checkTarget t) m (fun _ m' => m' = m) fun _ m' => m' = m := by
  cases t <;> exact ends_get_bind ((ends_require_cases _ _).imp (fun _ _ h => h.1) fun _ _ => id)

/-- **What a call starts with.** The closure on top of the stack decides where the call leads and
what its record starts with; the arguments follow. -/
theorem begun_enter (hm : m.Sound) : Ends enter m
    (fun target m' => ∃ c argc, m.value (m.stack.slots.getD (m.stack.depth - 1) 0) = .closure c
      ∧ c.target = target ∧ m.Operands argc ∧ Begun m c argc m') fun _ m' => Grown m m' := by
  have refl : ∀ (_ : Halt) (m' : Machine F), m' = m → Grown m m' := by
    rintro _ _ rfl
    exact .refl hm.wellFormed
  refine ends_bind ((ends_peek 0).imp (fun _ _ => id) refl) fun closureRef m' h => ?_
  obtain ⟨rfl, hclosureRef⟩ := h
  refine ends_bind ((ends_peek 1).imp (fun _ _ => id) refl) fun countRef m' h => ?_
  obtain ⟨rfl, hcountRef⟩ := h
  refine ends_get_bind (ends_bind ((ends_orFail _ _).imp (fun _ _ => id) refl)
    fun closure m' h => ?_)
  obtain ⟨rfl, hclosure⟩ := h
  refine ends_bind ((ends_argumentCount _).imp (fun _ _ => id) refl)
    fun argc m' h => ?_
  obtain ⟨rfl, hcount, hargs⟩ := h
  refine ends_bind ((ends_checkTarget _).imp (fun _ _ => id) refl)
    fun _ m' h => ?_
  subst h
  refine ends_get_bind (ends_bind ((ends_require_cases _ _).imp (fun _ _ => id)
    refl) fun _ m₀ h => ?_)
  obtain ⟨rfl, hroom⟩ := h
  refine ends_get_bind (ends_bind (ends_arrayClone hm _) fun record m₁ h₁ => ?_)
  obtain ⟨g₁, free, hl₁⟩ := h₁
  refine ends_bind (ends_pushArguments hm free 2 argc g₁ hl₁) fun _ m₂ h₂ => ends_get_bind ?_
  obtain ⟨g₂, hl₂⟩ := h₂
  refine ends_bind ((ends_allocInt g₂.grows.wellFormed _).imp (fun _ _ => id)
    fun _ _ => g₂.trans) fun base m₃ g₃ => ends_get_bind ?_
  refine ends_bind ((ends_allocInt g₃.grows.wellFormed _).imp (fun _ _ => id)
    fun _ _ g => (g₂.trans g₃).trans g) fun address m₄ g₄ => ?_
  have g := (g₂.trans g₃).trans g₄
  have hroom' : m₀.stack.depth - argc - 2 + 3 ≤ m₀.stack.capacity := by
    have := hm.ceiling
    rw [Bool.or_eq_true, OperandStack.hasRoom, decide_eq_true_eq, decide_eq_true_eq] at hroom
    rw [OperandStack.frameLength] at hargs
    omega
  refine ends_bind (ends_openFrame (by rw [g.stack]; exact hargs)
    (by rw [g.stack]; exact hroom')) fun _ m₅ h₅ =>
      ends_pure ⟨closure, argc, ?_, rfl, ⟨?_, hargs⟩, ?_⟩
  · rw [Nat.sub_zero] at hclosureRef
    exact hclosureRef ▸ asClosure?_eq_some hclosure
  · rw [show m₀.stack.depth - 2 = m₀.stack.depth - 1 - 1 by omega, ← hcountRef]
    exact hcount
  · obtain ⟨h₄, hg, mi, rfl⟩ := g
    rw [h₅]
    exact ⟨hg, mi, ⟨rfl, rfl, rfl, rfl⟩, free, (hl₂.unaltered (g₃.grows.spares.unaltered
      hl₂.isValid)).unaltered (g₄.grows.spares.unaltered (g₃.grows.spares.unaltered
        hl₂.isValid).isValid)⟩

/-! ### Calls -/

/-- A new array is captured by nobody. -/
theorem Apart.of_fresh (ha : Apart w m) (hw : w.Private) (core : SameCore m m')
    (mi : Mints ∅ m.heap m'.heap) {a : Ref} (free : m.heap.isValid a = false)
    (hr : m'.heap.IsRecord a) : Apart (.record a) m' where
  isRecord := hr
  globals := by
    rw [core.globals]
    exact (ne_of_free (ha.tables _ (.inl rfl)) free).symm
  listeners := by
    rw [core.listeners]
    exact (ne_of_free (ha.tables _ (.inr rfl)) free).symm
  tables t ht := by
    rw [core.globals, core.listeners] at ht
    exact mi.isValid (ha.tables t ht)
  ties := by
    have hs := ha.ties.isSealed hw
    refine ⟨mi.isSealed hs fun a h => absurd h (Set.notMem_empty a), mi.not_captures fun hc => ?_⟩
    rw [(hs _ hc).1] at free
    cases free
  uncaptured _ t ht := by
    rw [core.globals, core.listeners] at ht
    exact mi.not_captures (ha.uncaptured hw t ht)

theorem Grown.spared (g : Grown m m') (ha : Apart w m) : Spared w m m' := by
  obtain ⟨h, hg, mi, rfl⟩ := g
  exact ha.spared_heap (.of_mints (hg.spares.unaltered ha.isValid) mi)

namespace Begun

variable {c : Closure} {argc : Nat}

theorem spared (b : Begun m c argc m') (ha : Apart w m) : Spared w m m' ∧ m'.locals ≠ w.ref :=
  ⟨ha.spared b.core (.of_mints (b.grows.spares.unaltered ha.isValid) b.mints),
    ne_of_free ha.isValid b.fresh⟩

theorem apart (b : Begun m c argc m') (ha : Apart w m) (hw : w.Private) :
    Apart (.record m'.locals) m' :=
  ha.of_fresh hw b.core b.mints b.fresh ⟨b.holds.isValid, b.holds.isArray⟩

end Begun

/-- A caller goes on to hold on to what it holds on to. -/
theorem Opened.holdsOn {d : Nat} (op : Opened d m m') (same : SameCore m m')
    (held : HoldsOn d m w) : HoldsOn m'.stack.base m' w :=
  held.imp same fun _ ha => .inr (op.heldBelow ha.symm)

/-- `m'` comes from `m` by a call, and an array that is looked after is spared. -/
inductive Calls (w : Ward) (m : Machine F) : Machine F → Prop
  /-- The call is open. It has locals of its own. -/
  | opened {argc : Nat} {m' : Machine F} (operands : m.Operands argc)
    (opened : Opened (m.stack.depth - argc - 2) m m') (spared : Spared w m m')
    (locals : m'.locals ≠ w.ref) (fresh : w.Private → Apart (.record m'.locals) m') : Calls w m m'
  /-- It was one of a host function, and has returned. -/
  | returned {argc : Nat} {m' : Machine F} (operands : m.Operands argc)
    (returned : Returned (m.stack.depth - argc - 2) m m') (spared : Spared w m m') : Calls w m m'

/-- A call may also fail before it is opened. -/
theorem calls_call (hm : m.Standard) (hs : Safe w m) {host : UInt16 → Action F Unit}
    (hhost : ∀ id, Concludes w (host id)) (hnew : ∀ a id, Concludes (.record a) (host id)) :
    Ends (call host) m (fun _ m' => Calls w m m')
      fun _ m' => Within m m' ∧ Spared w m m' ∨ Calls w m m' := by
  have enter := (begun_enter hm.toSound).and (entered_enter reliance_arbitrary hm.reliable)
  refine ends_bind (enter.imp (fun _ _ => id) fun _ m' h => ?_) fun target m₁ h₁ => ?_
  · obtain ⟨g, -, st⟩ := h
    exact .inl ⟨st.toSteady.within hm, g.spared hs.toApart⟩
  obtain ⟨⟨c, _, -, -, -, b⟩, argc, record, base, address, m₀, en, he⟩ := h₁
  obtain ⟨sp, hl⟩ := b.spared hs.toApart
  have op := en.opened hm
  rw [← he] at op
  have operands : m.Operands argc := ⟨en.count, en.operands⟩
  have fresh : w.Private → Apart (.record m₁.locals) m₁ := b.apart hs.toApart
  -- what is done inside the call that has been opened
  have opened : ∀ {m₂}, Within m₁ m₂ → Spared w m₁ m₂ →
      (w.Private → Apart (.record m₁.locals) m₂) → Calls w m m₂ := by
    intro m₂ wi sp₂ fresh₂
    rw [← wi.locals] at hl fresh₂
    exact .opened operands (op.within wi) (sp.trans sp₂) hl fresh₂
  cases target with
  | code address' =>
    have same : SameCore m₁ { m₁ with pc := address' } := ⟨rfl, rfl, rfl, rfl⟩
    refine ends_modify (opened ?_ (sp.apart.spared_of_heap same rfl) fun hw =>
      ((fresh hw).spared_of_heap same rfl).apart)
    exact (confined_modify (f := fun m : Machine F => { m with pc := address' }) (fun _ => rfl) m₁
      op.standard).of_ok rfl
  | host number =>
    have safe : Safe w m₁ := ⟨sp.apart, op.holdsOn sp.core (hs.held.mono operands.base_le)⟩
    have kept : Ends (host number) m₁ (fun _ _ => True)
        fun _ m₂ => w.Private → Apart (.record m₁.locals) m₂ := by
      refine ⟨fun _ => trivial, fun he hw => ?_⟩
      exact ((hnew m₁.locals number _ m₁ op.called ⟨fresh hw, .inr (.inl rfl)⟩).of_error he).2.apart
    refine ends_get_bind (ends_bind (((hhost number _ m₁ op.called safe).and kept).imp
      (fun _ _ => And.left) fun _ m₂ h => .inr (opened h.1.1 h.1.2 h.2)) fun _ m₂ h =>
        ends_get_bind ?_)
    have calls : Calls w m m₂ := .returned operands (op.returned h.1) (sp.trans (h.2.spared hl))
    exact (ends_require_cases _ _).imp (fun _ _ h => h.1 ▸ calls) fun _ _ h => h ▸ .inr calls

/-! ### Instructions -/

/-- A machine without open calls, or inside one. -/
def AtSite (m : Machine F) : Prop := m.frameDepth = 0 ∨ ∃ c, Called c m

theorem AtSite.within (hm : m.AtSite) (wi : Within m m') : m'.AtSite :=
  hm.imp (wi.frameDepth.trans ·) fun ⟨c, hc⟩ => ⟨c, hc.within wi⟩

/-- **What an instruction can do,** as far as calls and an array are concerned that is looked
after. -/
inductive Strides (w : Ward) (m : Machine F) : Machine F → Prop
  /-- Work inside the call. -/
  | within {m' : Machine F} (within : Within m m') (minded : Minded w m m') : Strides w m m'
  /-- A call is opened, after some work. It has locals of its own. -/
  | opened {depth : Nat} {m₁ m' : Machine F} (within : Within m m₁) (before : Spared w m m₁)
    (opened : Opened depth m₁ m') (floor : m₁.stack.base ≤ depth) (top : depth ≤ m₁.stack.depth)
    (spared : Spared w m₁ m') (locals : m'.locals ≠ w.ref)
    (fresh : w.Private → Apart (.record m'.locals) m') : Strides w m m'
  /-- A return to whoever has made the call. -/
  | resumed {m' : Machine F} (resumed : ∀ c, Called c m → Resumed c m m')
    (frameDepth : m'.frameDepth + 1 = m.frameDepth) (minded : Minded w m m') : Strides w m m'

theorem Strides.minded (st : Strides w m m') : Minded w m m' := by
  cases st with
  | within _ minded => exact minded
  | opened wi before _ _ _ spared => exact (before.trans spared).minded
  | resumed _ _ minded => exact minded

/-- Work inside the call may come first. -/
theorem Strides.of_within (wi : Within m m') (sp : Spared w m m') (st : Strides w m' m'') :
    Strides w m m'' := by
  cases st with
  | within wi' minded => exact .within (wi.trans wi') (sp.trans_minded wi.locals minded)
  | opened wi' before op floor top spared locals fresh =>
    exact .opened (wi.trans wi') (sp.trans before) op floor top spared locals fresh
  | resumed re frameDepth minded =>
    refine .resumed (fun c hc => wi.resumed (re c (hc.within wi)) ?_)
      (frameDepth.trans wi.frameDepth) (sp.trans_minded wi.locals minded)
    rw [hc.base]
    omega

/-- From whatever standard machine the action starts, it does what an instruction can do. -/
def Performs (w : Ward) (x : Action F Unit) : Prop := ∀ m, m.Standard → m.AtSite → Safe w m →
  Ends x m (fun _ m' => Strides w m m') fun _ m' => Strides w m m'

theorem Shelters.performs {x : Action F α} {R : α → Prop} {f : α → Action F Unit}
    (hx : Shelters w x R) (hf : ∀ a, R a → Performs w (f a)) : Performs w (x >>= f) := by
  intro m hm site hs
  refine ends_bind ((hx m hm hs).imp (fun _ _ => id) fun _ _ h => .within h.1 h.2.minded)
    fun a m' h => ?_
  obtain ⟨⟨wi, sp⟩, ha⟩ := h
  exact (hf a ha m' wi.standard (site.within wi) (hs.within wi sp)).imp
    (fun _ _ st => st.of_within wi sp) fun _ _ st => st.of_within wi sp

theorem performs_get_bind {f : Machine F → Action F Unit} (hf : ∀ m, Performs w (f m)) :
    Performs w (get >>= f) := fun m hm site hs => ends_get_bind (hf m m hm site hs)

theorem Shelters.performs_self {x : Action F Unit} {R : Unit → Prop} (hx : Shelters w x R) :
    Performs w x := fun m hm _ hs => (hx m hm hs).imp (fun _ _ h => .within h.1.1 h.1.2.minded)
  fun _ _ h => .within h.1 h.2.minded

theorem Calls.strides (ca : Calls w m m') (hm : m.Standard) (hs : Safe w m) : Strides w m m' := by
  cases ca with
  | opened operands op spared locals fresh =>
    exact .opened (.refl hm) (.refl hs.toApart) op operands.base_le (by omega) spared locals fresh
  | returned operands re spared => exact .within (re.within operands.base_le) spared.minded

theorem performs_call {host : UInt16 → Action F Unit} (hhost : ∀ id, Concludes w (host id))
    (hnew : ∀ a id, Concludes (.record a) (host id)) : Performs w (call host) := by
  intro m hm _ hs
  refine (calls_call hm hs hhost hnew).imp (fun _ _ ca => ca.strides hm hs) fun _ _ h => ?_
  rcases h with ⟨wi, sp⟩ | ca
  · exact .within wi sp.minded
  · exact ca.strides hm hs

theorem performs_leaveFrame (result : Option Ref) :
    Performs w (leaveFrame result : Action F Unit) := by
  intro m hm site hs
  rcases site with idle | ⟨c₀, hc₀⟩
  · refine (ends_leaveFrame_idle idle result).imp (fun _ _ h => h.elim) fun _ _ h => ?_
    rw [h]
    exact .within (.refl hm) (Spared.refl hs.toApart).minded
  · refine ⟨fun he => ?_, fun he => ?_⟩
    · have returns := fun c hc => (concludes_leaveFrame result c m hc hs).of_ok he
      exact .resumed (fun c hc => (returns c hc).1) (returns c₀ hc₀).1.frameDepth
        (returns c₀ hc₀).2
    · obtain ⟨wi, sp⟩ := (concludes_leaveFrame result c₀ m hc₀ hs).of_error he
      exact .within wi sp.minded

section Instructions

variable [HostFunctions F] {call : Caller F}
  (hcall : ∀ closure args, Shelters w (call closure args))
  (hnew : ∀ a closure args, Shelters (.record a) (call closure args))

include hcall hnew

theorem performs_perform (op : Opcode) (operand : UInt16) :
    Performs w (perform (runHost call) op operand) := by
  by_cases hop : op.switchesFrame = false
  · exact fun m hm _ hs => (ends_perform hm hs hop operand).imp (fun _ _ h => .within h.1 h.2)
      fun _ _ h => .within h.1 h.2
  cases op with
  | call => exact performs_call (concludes_runHost hcall) fun a => concludes_runHost (hnew a)
  | ret0 => exact performs_leaveFrame none
  | ret1 =>
    exact performs_get_bind fun _ => (shelters_require _ _).performs fun _ _ =>
      shelters_pop.performs fun r _ => performs_leaveFrame (some r)
  | _ => exact absurd rfl hop

theorem performs_execute : Performs w (execute (runHost call)) := by
  refine performs_get_bind fun m => ?_
  cases m.fetch with
  | error e => exact (shelters_fail (R := fun _ => True) e).performs_self
  | ok p =>
    obtain ⟨op, operand⟩ := p
    refine performs_get_bind fun _ => (shelters_emit _).performs fun _ _ => ?_
    split
    · exact Shelters.performs_self (R := fun _ => True) (shelters_modify fun _ => rfl)
    · exact Shelters.performs (R := fun _ => True) (shelters_modify fun _ => rfl)
        fun _ _ => performs_perform hcall hnew op _

/-- One instruction, after a collection. -/
theorem performs_instruction {collect : Action F Unit} (hcollect : Shelters w collect) :
    Performs w (do collect; execute (runHost call)) :=
  hcollect.performs fun _ _ => performs_execute hcall hnew

end Instructions

/-! ### Inside a call -/

variable {c c' : Site} {sites : List Site}

/-- The machine `m` is inside a call from `entry`, and the array is as it was, since neither the
locals are in it nor those of the callers above `entry`. -/
structure InRecord (w : Ward) (entry : Machine F) (c : Site) (sites : List Site) (m : Machine F) :
    Prop extends InCall entry c sites m where
  /-- The first caller holds on to it. -/
  held : HoldsOn entry.stack.depth entry w
  /-- The array is as it was. -/
  spared : Spared w entry m
  /-- The locals are others, -/
  locals : m.locals ≠ w.ref
  /-- and so are those of the callers. -/
  callers : ∀ c' ∈ (c :: sites).dropLast, c'.locals ≠ w.ref

namespace InRecord

theorem safe (ir : InRecord w entry c sites m) : Safe w m :=
  ⟨ir.spared.apart, ir.held.imp ir.spared.core fun a ha => .inr (ir.heldBelow.2 a ha.symm)⟩

theorem atSite (ir : InRecord w entry c sites m) : m.AtSite := .inr ⟨c, ir.called⟩

theorem within (ir : InRecord w entry c sites m) (wi : Within m m') (sp : Spared w m m') :
    InRecord w entry c sites m' :=
  ⟨ir.toInCall.within wi, ir.held, ir.spared.trans sp, wi.locals ▸ ir.locals, ir.callers⟩

theorem opened {depth : Nat} (ir : InRecord w entry c sites m) (op : Opened depth m m')
    (hd : m.stack.base ≤ depth) (sp : Spared w m m') (locals : m'.locals ≠ w.ref) :
    InRecord w entry (m.siteAt depth) (c :: sites) m' := by
  refine ⟨ir.toInCall.opened op hd, ir.held, ir.spared.trans sp, locals, fun c' hc' => ?_⟩
  rw [List.dropLast_cons_cons] at hc'
  rcases List.mem_cons.1 hc' with rfl | hc'
  · exact ir.locals
  · exact ir.callers c' hc'

theorem resumed (ir : InRecord w entry c (c' :: sites) m) (re : Resumed c m m')
    (sp : Spared w m m') : InRecord w entry c' sites m' := by
  have callers := ir.callers
  rw [List.dropLast_cons_cons] at callers
  exact ⟨ir.toInCall.resumed re, ir.held, ir.spared.trans sp,
    re.locals ▸ callers c List.mem_cons_self,
    fun c'' hc'' => callers c'' (List.mem_cons_of_mem c hc'')⟩

end InRecord

/-- The call from `entry` is still going on, or it has returned. -/
def Proceeds (w : Ward) (entry m : Machine F) : Prop :=
  (∃ c sites, InRecord w entry c sites m)
    ∨ Returned entry.stack.depth entry m ∧ Spared w entry m

theorem Proceeds.spared (pr : Proceeds w entry m) : Spared w entry m := by
  rcases pr with ⟨c, sites, ir⟩ | ⟨-, sp⟩
  · exact ir.spared
  · exact sp

/-- An instruction goes on with the call or returns from it. -/
theorem InRecord.strides (ir : InRecord w entry c sites m) (st : Strides w m m') :
    Proceeds w entry m' := by
  cases st with
  | within wi minded => exact .inl ⟨c, sites, ir.within wi (minded.spared ir.locals)⟩
  | opened wi before op floor top spared locals _ =>
    exact .inl ⟨_, _, (ir.within wi before).opened op floor spared locals⟩
  | resumed re _ minded =>
    have sp := minded.spared ir.locals
    have re := re c ir.called
    cases sites with
    | nil => exact .inr ⟨ir.toInCall.returned re, ir.spared.trans sp⟩
    | cons c' rest => exact .inl ⟨c', rest, ir.resumed re sp⟩

/-! ### Calls from host code -/

theorem shelters_pushOperands (closure : Ref) (args : List Ref) :
    Shelters w (pushOperands closure args : Action F Unit) := by
  have pushes : ∀ l : List Ref, Shelters w (l.forM push : Action F Unit) := by
    intro l
    induction l with
    | nil => exact shelters_pure trivial
    | cons r l ih => exact (shelters_push r).bind fun _ _ => ih
  exact shelters_get_bind fun _ _ => (shelters_require _ _).bind fun _ _ => (pushes _).bind
    fun _ _ => (shelters_alloc _ (by rfl)).bind fun _ _ => (shelters_push _).bind
      fun _ _ => shelters_push _

section HostCode

variable [HostFunctions F] {collect : Action F Unit} {call : Caller F}
  (hcall : ∀ closure args, Shelters w (call closure args))
  (hnew : ∀ a closure args, Shelters (.record a) (call closure args))

include hcall hnew

/-- Instructions are executed until the call has returned. -/
theorem Proceeds.ends_runFrames (hcollect : Shelters w collect) (n : Nat)
    (pr : Proceeds w entry m) : Ends (runFramesWith collect call entry.frameDepth n) m
      (fun _ m' => Returned entry.stack.depth entry m' ∧ Spared w entry m')
      fun _ m' => Spared w entry m' := by
  induction n generalizing m with
  | zero => exact ends_throw pr.spared
  | succ n ih =>
    rcases pr with ⟨c, sites, ir⟩ | re
    · have hdepth := ir.frameDepth
      have hstep := performs_instruction hcall hnew hcollect m ir.standard ir.atSite ir.safe
      rw [ends_iff, runFramesWith_of_lt (by omega)]
      cases hs : (do collect; execute (runHost call) : Action F Unit) m with
      | error e m₁ => exact (ir.strides (hstep.of_error hs)).spared
      | ok u m₁ =>
        have pr₁ := ir.strides (hstep.of_ok hs)
        by_cases hready : m₁.state = .ready
        · simp only [hready, if_true]
          exact ends_iff.1 (ih pr₁)
        · simp only [hready, if_false]
          exact pr₁.spared
    · have hdone : runFramesWith collect call entry.frameDepth (n + 1) m = .ok () m :=
        if_pos re.1.frameDepth.le
      rw [ends_iff, hdone]
      exact re

/-- A call from host code is opened, or has already returned. If it fails, it may also be that it
was not opened. -/
theorem proceeds_call (hm : entry.Standard) (hs : Safe w entry) (closure : Ref) (args : List Ref) :
    Ends (do pushOperands closure args; Machine.call (runHost call)) entry
      (fun _ m => Proceeds w entry m)
      fun _ m => Within entry m ∧ Spared w entry m ∨ Proceeds w entry m := by
  refine ends_bind (((ends_pushOperands hm closure args).and ((shelters_pushOperands closure
    args).confined hm hs)).imp (fun _ _ => id) fun _ _ h => .inl h.2) fun _ m₁ h₁ => ?_
  obtain ⟨⟨k, ld, hdepth⟩, wi, sp⟩ := h₁
  have afterCall : ∀ {m₂}, Calls w m₁ m₂ → Proceeds w entry m₂ := by
    intro m₂ ca
    cases ca with
    | opened operands op spared locals _ =>
      rw [hdepth _ operands] at op
      refine .inl ⟨_, _, (ld.opened op).inCall, hs.held.mono hm.floor, sp.trans spared, locals,
        fun c' hc' => ?_⟩
      cases hc'
    | returned operands re spared =>
      rw [hdepth _ operands] at re
      exact .inr ⟨ld.returned re, sp.trans spared⟩
  refine (calls_call ld.standard (hs.within wi sp) (concludes_runHost hcall)
    fun a => concludes_runHost (hnew a)).imp (fun _ _ => afterCall) fun _ _ h => ?_
  rcases h with ⟨wi', sp'⟩ | ca
  · exact .inl ⟨wi.trans wi', sp.trans sp'⟩
  · exact .inr (afterCall ca)

end HostCode

variable [HostFunctions F]

/-- **Calls from host code leave an array alone that is looked after,** whatever they call, if what
is done in the place of collections does. -/
theorem shelters_callWith {collect : Action F Unit} (confined : Confined collect)
    (hnew : ∀ a, Shelters (.record a) collect) (hcollect : Shelters w collect) (n : Nat)
    (closure : Ref) (args : List Ref) : Shelters w (callWith collect n closure args) := by
  induction n generalizing w closure args with
  | zero => exact shelters_throw _
  | succ n ih =>
    have hx : Confined (callWith collect (n + 1) closure args) :=
      (upholds_callWith confined.upholds_true (n + 1) closure args).confined
    refine hx.shelters fun m hm hs => ?_
    have hm₀ : Standard { m with state := .ready } :=
      ⟨⟨hm.wellFormed, hm.tidy, hm.floor, hm.ceiling⟩, hm.capacity, hm.functions⟩
    have sp₀ : Spared w m { m with state := .ready } :=
      hs.toApart.spared_of_heap ⟨rfl, rfl, rfl, rfl⟩ rfl
    have hs₀ : Safe w { m with state := .ready } := ⟨sp₀.apart, hs.held.imp sp₀.core fun _ => id⟩
    have calls : Ends (do
        let depth := (← get).frameDepth
        pushOperands closure args
        call (runHost (callWith collect n))
        runFramesWith collect (callWith collect n) depth n
        pop) { m with state := .ready } (fun _ m' => Spared w m m') fun _ m' => Spared w m m' := by
      refine ends_get_bind ?_
      rw [← bind_assoc]
      refine ends_bind ((proceeds_call (ih hcollect) (fun a => ih (hnew a)) hm₀ hs₀ closure
        args).imp (fun _ _ => id) fun _ _ h => ?_) fun _ m₁ pr => ?_
      · exact sp₀.trans (h.elim And.right Proceeds.spared)
      refine ends_bind ((pr.ends_runFrames (ih hcollect) (fun a => ih (hnew a)) hcollect n).imp
        (fun _ _ => id) fun _ _ => sp₀.trans) fun _ m₂ h => ?_
      refine (h.1.ends_pop hm.floor).imp (fun _ m₃ he => ?_) fun _ _ => id
      rw [he]
      exact sp₀.trans (h.2.trans (h.2.apart.spared_of_heap ⟨rfl, rfl, rfl, rfl⟩ rfl))
    refine (ends_guarded calls).imp (fun _ m' h => ?_) fun _ m' h => ?_
    · obtain ⟨m'', sp, rfl⟩ := h
      exact ⟨sp.trans (sp.apart.spared_of_heap ⟨rfl, rfl, rfl, rfl⟩ rfl), trivial⟩
    · obtain ⟨m'', sp, rfl⟩ := h
      exact sp.trans (sp.apart.spared_of_heap ⟨rfl, rfl, rfl, rfl⟩ rfl)

theorem shelters_callClosure (n : Nat) (closure : Ref) (args : List Ref)
    (hw : w.Rooted) : Shelters w (callClosure n closure args : Action F Ref) := by
  rw [← callWith_collectGarbage]
  exact shelters_callWith confined_collectGarbage (fun _ => shelters_collectGarbage trivial)
    (shelters_collectGarbage hw) n closure args

/-! ### Host code that is looked at -/

/-- Host code with `fuel` for every call, which is looked at when it makes one: the call takes its
course, with `collect` in the place of collections, or nothing is done from there on. -/
def Pausing (collect : Action F Unit) (fuel : Nat) (call : Caller F) : Prop := ∀ closure args m,
  call closure args m = callWith collect fuel closure args m
    ∨ call closure args m = .error .outOfFuel m

theorem Pausing.shelters {collect : Action F Unit} {fuel : Nat}
    {call : Caller F} (hcall : Pausing collect fuel call)
    (hx : ∀ closure args, Shelters w (callWith collect fuel closure args)) (closure : Ref)
    (args : List Ref) : Shelters w (call closure args) := by
  intro m hm hs
  rcases hcall closure args m with he | he
  · rw [ends_iff, he]
    exact ends_iff.1 (hx closure args m hm hs)
  · rw [ends_iff, he]
    exact ⟨.refl hm, .refl hs.toApart⟩

end Machine

end SwarmVm
