import SwarmVm.Proofs.Heap.Invariant
import SwarmVm.Proofs.Machine.Calls

/-!
# Work that is confined to a call

Host functions do more than instructions: they change the shared store and the outbox, make objects
permanent, and call back into the script, which collects garbage. What they leave alone is the same:
the floor of the call, the stack below it, the activation record and the number of open calls. And
whatever happens to the heap, the objects that the stack below the floor refers to are still there,
because a collection starts from them.

Nothing is asked here of the objects that a script handles. So what an action does can be said
without saying where it starts, and a host function is read off from its text.

A host function ends with a return, which takes the registers of its caller from the bookkeeping
below the floor. It finds there what the call has put there, because the function was confined to
the call.

## Main definitions

* `Machine.Sound`, `Machine.Standard` — machines as a script finds them
* `Machine.Within`, `Machine.Confined` — what a machine does inside a call
* `Site`, `Machine.Called` — the registers of a caller, and its bookkeeping on the stack

## Main results

* `Machine.confined_of_yields`, `Machine.confined_collectGarbage` — confined actions
* `Machine.Entered.opened`, `Machine.Opened.returned` — a call, and its return
-/

namespace SwarmVm

namespace Heap

variable {h h' h'' : Heap} {r : Ref}

/-- The object `r`, if it is there, is still there, a table is still a table, and an integer is
still the same integer. -/
structure Stays (h h' : Heap) (r : Ref) : Prop where
  /-- The object is there. -/
  isValid : h.isValid r = true → h'.isValid r = true
  /-- A table is one. -/
  isTable : h.IsTable r → h'.IsTable r
  /-- An integer is the same. -/
  int : ∀ i, h.value r = .int i → h'.value r = .int i

theorem Stays.refl (h : Heap) (r : Ref) : Stays h h r := ⟨id, id, fun _ => id⟩

theorem Stays.trans (st : Stays h h' r) (st' : Stays h' h'' r) : Stays h h'' r :=
  ⟨fun hv => st'.isValid (st.isValid hv), fun ht => st'.isTable (st.isTable ht),
    fun i hi => st'.int i (st.int i hi)⟩

theorem Keeps.stays (k : Keeps h h') (r : Ref) : Stays h h' r :=
  ⟨k.isValid r, k.isTable, fun _ => k.value_int⟩

theorem stays_setPermanent (layout : h.Layout) (r' : Ref) (permanent : Bool) (r : Ref) :
    Stays h (h.setPermanent r' permanent) r := by
  obtain ⟨hvalid, hvalue⟩ := value_setPermanent layout r' r permanent
  refine ⟨fun hv => hvalid.trans hv, fun ht => ⟨hvalid.trans ht.1, ?_⟩, fun _ hi => hvalue.trans hi⟩
  rw [kind_setPermanent layout]
  exact ht.2

theorem stays_collect (layout : h.Layout) {roots : List Ref} (hr : r ∈ roots) :
    Stays h (h.collect roots).2 r := by
  have valid : h.isValid r = true → (h.collect roots).2.isValid r = true := by
    intro hv
    exact (isValid_collect_iff layout).2 ⟨hv, r, hv, .inl hr, .refl⟩
  refine ⟨valid, fun ht => ⟨valid ht.1, ?_⟩, fun i hi => ?_⟩
  · rw [kind, header_collect layout (valid ht.1)]
    exact ht.2
  · rw [value_collect layout (valid (kind_of_value hi (by simp)).1), hi]

end Heap

/-! ### Callers -/

/-- The registers of a caller that waits for a call: how deep its stack is without the operands of
the call, its floor, its activation record, and where it goes on. -/
structure Site where
  /-- The depth of its stack. -/
  depth : Nat
  /-- Its floor. -/
  base : Nat
  /-- Its activation record. -/
  locals : Ref
  /-- Where it goes on. -/
  pc : UInt16

/-- The bookkeeping of a call by `c` is on the stack. -/
structure Site.Saved (c : Site) (h : Heap) (slots : Array Ref) : Prop where
  /-- The lowest entry is the floor of the caller, -/
  base : ∃ r, slots[c.depth]? = some r ∧ h.value r = .int (Int16.ofNat c.base)
  /-- the next one its activation record, -/
  locals : slots[c.depth + 1]? = some c.locals
  /-- and the uppermost one the return address. -/
  address : ∃ r, slots[c.depth + 2]? = some r ∧ h.value r = .int c.pc.toInt16
  /-- The caller had its floor below its top. -/
  floor : c.base ≤ c.depth

/-- The bookkeeping stays where it is, with the objects that it consists of. -/
theorem Site.Saved.mono {c : Site} {h h' : Heap} {slots slots' : Array Ref} (sv : c.Saved h slots)
    (same : ∀ i < c.depth + 3, slots'[i]? = slots[i]?)
    (stays : ∀ i < c.depth + 3, ∀ r, slots[i]? = some r → h.Stays h' r) : c.Saved h' slots' where
  base := by
    obtain ⟨r, hr, hi⟩ := sv.base
    exact ⟨r, (same _ (by omega)).trans hr, (stays _ (by omega) r hr).int _ hi⟩
  locals := (same _ (by omega)).trans sv.locals
  address := by
    obtain ⟨r, hr, hi⟩ := sv.address
    exact ⟨r, (same _ (by omega)).trans hr, (stays _ (by omega) r hr).int _ hi⟩
  floor := sv.floor

namespace Machine

open Heap (Arbitrary Keeps Stays)

variable {F α β : Type} {m m' m'' : Machine F} {d d' : Nat}

/-! ### Machines as a script finds them -/

/-- The heap is well formed and tidy, and the stack is within its bounds. -/
structure Sound (m : Machine F) : Prop where
  /-- The heap is well formed. -/
  wellFormed : m.heap.WellFormed
  /-- Free slots are tidy. -/
  tidy : m.heap.Tidy
  /-- The floor is not above the top. -/
  floor : m.stack.base ≤ m.stack.depth
  /-- The stack is not too deep. -/
  ceiling : m.stack.depth ≤ m.stack.capacity

theorem Sound.reliable (hm : m.Sound) : m.Reliable Arbitrary :=
  ⟨hm.wellFormed, hm.floor, hm.ceiling, fun _ _ => hm.tidy, fun _ _ => hm.tidy⟩

theorem Reliable.sound (hm : m.Reliable Arbitrary) : m.Sound :=
  ⟨hm.wellFormed, hm.nil, hm.floor, hm.ceiling⟩

/-- A sound machine without functions of the embedder, whose stack depths fit in sixteen bits. -/
structure Standard (m : Machine F) : Prop extends m.Sound where
  /-- Depths fit in sixteen bits. -/
  capacity : m.stack.capacity ≤ 65535
  /-- All host functions are standard ones. -/
  functions : m.functions = #[]

/-- `m'` is standard as well, and the lowest `d` stack entries are those of `m`. -/
structure Agrees (d : Nat) (m m' : Machine F) : Prop where
  /-- The machine is standard. -/
  standard : m'.Standard
  /-- The stack may get as deep as before. -/
  capacity : m'.stack.capacity = m.stack.capacity
  /-- The lowest entries are the same. -/
  slots : ∀ i < d, m'.stack.slots[i]? = m.stack.slots[i]?

/-- One of the lowest `d` stack entries is the object `r`. -/
def HeldBelow (d : Nat) (m : Machine F) (r : Ref) : Prop := ∃ i < d, m.stack.slots[i]? = some r

namespace Agrees

theorem refl (hm : m.Standard) : Agrees d m m := ⟨hm, rfl, fun _ _ => rfl⟩

theorem trans (ag : Agrees d m m') (ag' : Agrees d m' m'') : Agrees d m m'' :=
  ⟨ag'.standard, ag'.capacity.trans ag.capacity,
    fun i hi => (ag'.slots i hi).trans (ag.slots i hi)⟩

theorem mono (ag : Agrees d m m') (hd : d' ≤ d) : Agrees d' m m' :=
  ⟨ag.standard, ag.capacity, fun i hi => ag.slots i (hi.trans_le hd)⟩

theorem heldBelow {r : Ref} (ag : Agrees d m m') (hr : HeldBelow d m r) : HeldBelow d m' r := by
  obtain ⟨i, hi, hs⟩ := hr
  exact ⟨i, hi, (ag.slots i hi).trans hs⟩

/-- An entry that is there is there in both. -/
theorem depth_le (ag : Agrees d m m') (hd : d ≤ m.stack.depth) : d ≤ m'.stack.depth := by
  by_contra hlt
  have hsize : m.stack.depth = m.stack.slots.size := rfl
  have hsome := ag.slots m'.stack.slots.size (by rw [OperandStack.depth] at hlt; omega)
  rw [Array.getElem?_eq_none (le_refl _), Array.getElem?_eq_getElem] at hsome
  · cases hsome
  · rw [OperandStack.depth] at hlt
    omega

end Agrees

theorem HeldBelow.mono {r : Ref} (hr : HeldBelow d m r) (hd : d ≤ d') : HeldBelow d' m r := by
  obtain ⟨i, hi, hs⟩ := hr
  exact ⟨i, hi.trans_le hd, hs⟩

/-- Moreover, what the lowest `d` stack entries of `m` refer to is still there, and so is its
activation record. -/
structure Kept (d : Nat) (m m' : Machine F) : Prop extends Agrees d m m' where
  /-- The objects are still there. -/
  stays : ∀ r, HeldBelow d m r ∨ r = m.locals → m.heap.Stays m'.heap r

theorem Kept.refl (hm : m.Standard) : Kept d m m := ⟨.refl hm, fun r _ => .refl _ r⟩

theorem Kept.mono (kp : Kept d m m') (hd : d' ≤ d) : Kept d' m m' :=
  ⟨kp.toAgrees.mono hd, fun r hr => kp.stays r (hr.imp_left fun h => h.mono hd)⟩

/-! ### Confined actions -/

/-- `m'` comes from `m` by what a host function may do before it returns. -/
structure Within (m m' : Machine F) : Prop extends Kept m.stack.base m m' where
  /-- The floor is where it was. -/
  base : m'.stack.base = m.stack.base
  /-- The activation record is the same. -/
  locals : m'.locals = m.locals
  /-- As many calls are open. -/
  frameDepth : m'.frameDepth = m.frameDepth

namespace Within

theorem refl (hm : m.Standard) : Within m m := ⟨.refl hm, rfl, rfl, rfl⟩

theorem trans (w : Within m m') (w' : Within m' m'') : Within m m'' where
  toAgrees := w.toAgrees.trans (w'.toAgrees.mono w.base.ge)
  stays r hr := by
    refine (w.stays r hr).trans (w'.stays r ?_)
    rw [w.base, w.locals]
    exact hr.imp_left w.toAgrees.heldBelow
  base := w'.base.trans w.base
  locals := w'.locals.trans w.locals
  frameDepth := w'.frameDepth.trans w.frameDepth

end Within

/-- The heap changes, and no register. -/
theorem within_of_heap (hm : m.Standard) (wf : m'.heap.WellFormed) (tidy : m'.heap.Tidy)
    (stack : m'.stack = m.stack) (locals : m'.locals = m.locals)
    (frameDepth : m'.frameDepth = m.frameDepth) (functions : m'.functions = m.functions)
    (stays : ∀ r, r ∈ m.stack.slots.toList ∨ r = m.locals → m.heap.Stays m'.heap r) :
    Within m m' where
  standard := by
    refine ⟨⟨wf, tidy, ?_, ?_⟩, ?_, functions.trans hm.functions⟩
    · rw [stack]
      exact hm.floor
    · rw [stack]
      exact hm.ceiling
    · rw [stack]
      exact hm.capacity
  capacity := by rw [stack]
  slots i _ := by rw [stack]
  base := by rw [stack]
  locals := locals
  frameDepth := frameDepth
  stays r hr := by
    refine stays r (hr.imp_left fun h => ?_)
    obtain ⟨i, _, hs⟩ := h
    exact Array.mem_toList_iff.2 (Array.mem_of_getElem? hs)

theorem Steady.within (st : Steady Arbitrary m m') (hm : m.Standard) : Within m m' where
  standard := by
    refine ⟨st.reliable.sound, ?_, ?_⟩
    · rw [st.capacity]
      exact hm.capacity
    · rw [st.same]
      exact hm.functions
  capacity := st.capacity
  slots := st.slots
  base := st.base
  locals := by rw [st.same]
  frameDepth := by rw [st.same]
  stays r _ := st.keeps.stays r

/-- From whatever standard machine the action starts, it leaves the registers of the call alone,
whether it answers or fails. -/
def Confined (x : Action F α) : Prop := ∀ m, m.Standard →
  Ends x m (fun _ m' => Within m m') fun _ m' => Within m m'

theorem confined_pure (a : α) : Confined (pure a : Action F α) := fun _ hm => ends_pure (.refl hm)

theorem Confined.bind {x : Action F α} {f : α → Action F β} (hx : Confined x)
    (hf : ∀ a, Confined (f a)) : Confined (x >>= f) := by
  intro m hm
  refine ends_bind (hx m hm) fun a m' w => ?_
  exact (hf a m' w.standard).imp (fun _ _ w' => w.trans w') fun _ _ w' => w.trans w'

theorem confined_get_bind {f : Machine F → Action F β} (hf : ∀ m, Confined (f m)) :
    Confined (get >>= f) := fun m hm => ends_get_bind (hf m m hm)

/-- Whatever is steady is confined. -/
theorem confined_of_yields {x : Action F α} {R : Machine F → α → Machine F → Prop}
    (hx : ∀ {m}, m.Reliable Arbitrary → Yields Arbitrary x m (R m)) : Confined x := by
  intro _ hm
  exact Ends.imp (hx hm.reliable) (fun _ _ h => h.1.within hm) fun _ _ h => h.2.within hm

/-- Registers other than the stack, the activation record and the number of open calls do not
matter. -/
theorem confined_modify {f : Machine F → Machine F} (hf : ∀ m, f m = { m with
    pc := (f m).pc, state := (f m).state, error := (f m).error, inbox := (f m).inbox
    outbox := (f m).outbox, sensors := (f m).sensors, stigmergy := (f m).stigmergy
    membership := (f m).membership, pinned := (f m).pinned, receiver := (f m).receiver
    reports := (f m).reports, log := (f m).log, strayed := (f m).strayed }) :
    Confined (modify f : Action F Unit) := by
  intro m hm
  refine ends_modify ?_
  rw [hf m]
  exact within_of_heap hm hm.wellFormed hm.tidy rfl rfl rfl rfl fun r _ => .refl _ r

theorem confined_setPermanent (r : Ref) (permanent : Bool) :
    Confined (modifyHeap (·.setPermanent r permanent) : Action F Unit) := by
  intro m hm
  have ev : Heap.Evolves {r} ∅ m.heap _ := Heap.evolves_setPermanent hm.wellFormed r permanent
  refine ends_iff.2 (within_of_heap hm ev.wellFormed (ev.tidy hm.tidy) rfl rfl rfl rfl
    fun r' _ => ?_)
  exact Heap.stays_setPermanent hm.wellFormed.layout r permanent r'

/-- A collection starts from the stack and the activation record. -/
theorem confined_collectGarbage : Confined (collectGarbage : Action F Unit) := by
  intro m hm
  refine ends_collectGarbage.imp (fun _ m' h => ?_) fun _ m' h => ?_
  · obtain ⟨log, rfl⟩ := h
    refine within_of_heap hm (Heap.wellFormed_collect hm.wellFormed _)
      (Heap.tidy_collect hm.wellFormed.layout hm.tidy _) rfl rfl rfl rfl fun r hr => ?_
    refine Heap.stays_collect hm.wellFormed.layout (List.mem_append.2 (hr.imp_right fun he => ?_))
    rw [he]
    simp [ambient]
  · rw [h.2]
    exact .refl hm

/-! ### Returns -/

/-- The machine is in a call that `c` has made. -/
structure Called (c : Site) (m : Machine F) : Prop where
  /-- The machine is standard. -/
  standard : m.Standard
  /-- The bookkeeping is below the floor. -/
  base : m.stack.base = c.depth + 3
  /-- It is that of the caller. -/
  saved : c.Saved m.heap m.stack.slots
  /-- The activation record is there. -/
  locals : m.heap.IsTable m.locals
  /-- A call is open. -/
  frameDepth : 0 < m.frameDepth

/-- What is confined to the call stays in it. -/
theorem Called.within {c : Site} (hc : Called c m) (w : Within m m') : Called c m' where
  standard := w.standard
  base := w.base.trans hc.base
  saved := by
    refine hc.saved.mono (fun i hi => w.slots i (hc.base ▸ hi)) fun i hi r hr => ?_
    exact w.stays r (.inl ⟨i, hc.base ▸ hi, hr⟩)
  locals := by
    rw [w.locals]
    exact (w.stays m.locals (.inr rfl)).isTable hc.locals
  frameDepth := by
    rw [w.frameDepth]
    exact hc.frameDepth

/-- `m'` comes from `m`, which was called by `c`, by returning: the registers are those of `c`, and
the result is on its stack. -/
structure Resumed (c : Site) (m m' : Machine F) : Prop extends Agrees c.depth m m' where
  /-- The result is on the stack. -/
  depth : m'.stack.depth = c.depth + 1
  /-- The floor is that of the caller, -/
  base : m'.stack.base = c.base
  /-- and so is the activation record. -/
  locals : m'.locals = c.locals
  /-- It goes on behind the call. -/
  pc : m'.pc = c.pc
  /-- One call less is open. -/
  frameDepth : m'.frameDepth + 1 = m.frameDepth
  /-- What the stack below the floor refers to is still there. -/
  stays : ∀ r, HeldBelow m.stack.base m r → m.heap.Stays m'.heap r

theorem Within.resumed {c : Site} (w : Within m m') (re : Resumed c m' m'')
    (hd : c.depth ≤ m.stack.base) : Resumed c m m'' where
  toAgrees := (w.toAgrees.mono hd).trans re.toAgrees
  depth := re.depth
  base := re.base
  locals := re.locals
  pc := re.pc
  frameDepth := re.frameDepth.trans w.frameDepth
  stays r hr := by
    refine (w.stays r (.inl hr)).trans (re.stays r ?_)
    rw [w.base]
    exact w.toAgrees.heldBelow hr

theorem toNat_ofNat_toUInt16 {n : Nat} (hn : n ≤ 65535) : (Int16.ofNat n).toUInt16.toNat = n :=
  Heap.toNat_ofNat_of_lt (by omega)

/-- A return restores the registers of the caller. Floors fit in sixteen bits, so the floor comes
back as it was. -/
theorem resumed_returned {c : Site} (hc : Called c m) (result : Option Ref) :
    Resumed c m (m.returned c.depth c.locals (Int16.ofNat c.base) c.pc.toInt16 result) := by
  have hm := hc.standard
  have floor := hm.floor
  have ceiling := hm.ceiling
  have capacity := hm.capacity
  have hfloor := hc.saved.floor
  have hbase := hc.base
  have ev : Heap.Evolves ∅ ∅ m.heap (m.heap.arrayClear m.locals) :=
    Heap.evolves_arrayClear hm.wellFormed hc.locals
  have hcut := OperandStack.depth_truncate (s := m.stack) (d := c.depth) (by omega)
  rw [OperandStack.depth] at hcut
  have hdepth : ((m.stack.truncate c.depth).slots.push (result.getD m.nil)).size = c.depth + 1 := by
    rw [Array.size_push, hcut]
  have hbase' : min (Int16.ofNat c.base).toUInt16.toNat c.depth = c.base := by
    rw [toNat_ofNat_toUInt16 (by omega)]
    exact Nat.min_eq_left hfloor
  -- unfolded, so that no field of one machine is compared with the whole other one
  rw [returned]
  constructor
  case toAgrees =>
    refine ⟨⟨⟨ev.wellFormed, ev.tidy hm.tidy, ?_, ?_⟩, capacity, hm.functions⟩, rfl, fun i hi => ?_⟩
    · exact (hbase'.trans_le (by omega : c.base ≤ c.depth + 1)).trans hdepth.ge
    · exact hdepth.trans_le (by omega : c.depth + 1 ≤ m.stack.capacity)
    · have hlt : i < (m.stack.truncate c.depth).slots.size := by
        rw [hcut]
        exact hi
      exact ((Array.getElem?_push_lt hlt).trans (Array.getElem?_eq_getElem hlt).symm).trans
        (OperandStack.getElem?_truncate hi)
  case depth => exact hdepth
  case base => exact hbase'
  case locals => rfl
  case pc => rfl
  case frameDepth => exact Nat.sub_add_cancel hc.frameDepth
  case stays => exact fun r _ => (Keeps.of_evolves ev).stays r

/-! ### Calls -/

/-- The caller that a machine becomes by a call whose operands are above the depth `d`. -/
def siteAt (m : Machine F) (d : Nat) : Site := ⟨d, m.stack.base, m.locals, m.pc⟩

/-- `m'` comes from `m` by opening a call whose operands are above the depth `d`. -/
structure Opened (d : Nat) (m m' : Machine F) : Prop extends Kept d m m' where
  /-- The call is open. -/
  called : Called (m.siteAt d) m'
  /-- One more call is open. -/
  frameDepth : m'.frameDepth = m.frameDepth + 1

/-- `m'` comes from `m` by a call whose operands were above the depth `d`, and which has returned:
the result is in their place, and the registers are as they were. -/
structure Returned (d : Nat) (m m' : Machine F) : Prop extends Kept d m m' where
  /-- The result is on the stack. -/
  depth : m'.stack.depth = d + 1
  /-- The floor is where it was. -/
  base : m'.stack.base = m.stack.base
  /-- The activation record is the same, -/
  locals : m'.locals = m.locals
  /-- and the program counter. -/
  pc : m'.pc = m.pc
  /-- As many calls are open. -/
  frameDepth : m'.frameDepth = m.frameDepth

namespace Opened

/-- The stack of the callee holds all that the caller needs. -/
theorem heldBelow (op : Opened d m m') {r : Ref} (hr : HeldBelow d m r ∨ r = m.locals) :
    HeldBelow m'.stack.base m' r := by
  have hbase : m'.stack.base = d + 3 := op.called.base
  rcases hr with hr | rfl
  · exact (op.toAgrees.heldBelow hr).mono (by omega)
  · exact ⟨d + 1, by omega, op.called.saved.locals⟩

theorem within (op : Opened d m m') (w : Within m' m'') : Opened d m m'' where
  toAgrees := by
    refine op.toAgrees.trans (w.toAgrees.mono ?_)
    rw [op.called.base]
    exact Nat.le_add_right d 3
  called := op.called.within w
  frameDepth := w.frameDepth.trans op.frameDepth
  stays r hr := (op.stays r hr).trans (w.stays r (.inl (op.heldBelow hr)))

theorem returned (op : Opened d m m') (re : Resumed (m.siteAt d) m' m'') : Returned d m m'' where
  toAgrees := op.toAgrees.trans re.toAgrees
  depth := re.depth
  base := re.base
  locals := re.locals
  pc := re.pc
  frameDepth := Nat.succ.inj (re.frameDepth.trans op.frameDepth)
  stays r hr := (op.stays r hr).trans (re.stays r (op.heldBelow hr))

end Opened

/-- The bookkeeping of a call that has been opened is that of the caller. -/
theorem Entered.saved {target : Target} {argc : Nat} {record base address : Ref} {m₁ : Machine F}
    (en : Entered Arbitrary m target argc record base address m₁) :
    (m.siteAt (m.stack.depth - argc - 2)).Saved m₁.heap
      (m₁.withFrame argc record base address).stack.slots := by
  have hfloor := en.operands
  have hlocals : m₁.locals = m.locals := by rw [en.still.same]
  rw [OperandStack.frameLength] at hfloor
  rw [withFrame, en.still.stack, hlocals]
  exact ⟨⟨base, OperandStack.entries_opened.1, en.base.2⟩, OperandStack.entries_opened.2.1,
    ⟨address, OperandStack.entries_opened.2.2, en.address.2⟩,
    show m.stack.base ≤ m.stack.depth - argc - 2 by omega⟩

/-- Opening a call saves the registers of the caller. -/
theorem Entered.opened {target : Target} {argc : Nat} {record base address : Ref} {m₁ : Machine F}
    (hm : m.Standard) (en : Entered Arbitrary m target argc record base address m₁) :
    Opened (m.stack.depth - argc - 2) m (m₁.withFrame argc record base address) := by
  have hw := en.still.toSteady.within hm
  have hstack := en.still.stack
  have hsaved := en.saved
  have hdepth : (m.stack.opened argc base m₁.locals address).depth = m.stack.depth - argc - 2 + 3 :=
    OperandStack.depth_opened
  have hstandard : (m₁.withFrame argc record base address).Standard := by
    rw [withFrame, hstack]
    refine ⟨⟨hw.standard.wellFormed, hw.standard.tidy, hdepth.ge, hdepth.trans_le en.room⟩,
      hm.capacity, hw.standard.functions⟩
  have hagrees : Agrees (m.stack.depth - argc - 2) m (m₁.withFrame argc record base address) := by
    refine ⟨hstandard, ?_, fun i hi => ?_⟩
    · rw [withFrame, hstack]
      rfl
    · rw [withFrame, hstack]
      exact OperandStack.getElem?_opened hi
  rw [withFrame, hstack] at hstandard hagrees hsaved ⊢
  exact ⟨⟨hagrees, fun r _ => en.still.keeps.stays r⟩,
    ⟨hstandard, rfl, hsaved, en.record.2, Nat.succ_pos _⟩, congrArg (· + 1) hw.frameDepth⟩

/-- The stack holds the operands of a call with `argc` arguments. -/
def Operands (m : Machine F) (argc : Nat) : Prop :=
  (∃ i : Int16, m.value (m.stack.slots.getD (m.stack.depth - 2) 0) = .int i ∧ i.toInt = argc)
    ∧ argc + 2 ≤ m.stack.frameLength

/-- What is left of a call: nothing but the objects that it made when it could not be opened, else
an open call, or the result. -/
def AfterCall (m m' : Machine F) : Prop := Still Arbitrary m m' ∨ ∃ argc, m.Operands argc
  ∧ (Opened (m.stack.depth - argc - 2) m m' ∨ Returned (m.stack.depth - argc - 2) m m')

end Machine

end SwarmVm
