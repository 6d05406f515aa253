import SwarmVm.Proofs.Heap.Lists
import SwarmVm.Proofs.Heap.Lookups
import SwarmVm.Proofs.Machine.Fields
import SwarmVm.Proofs.Machine.Records

/-!
# Methods

A closure that is stored in a table becomes a method of the table. What is stored is a new closure
of the same code, with an activation record of its own, whose local zero is the table; behind it are
the locals that the closure had captured, from position 1 on. A call makes another copy of this
record and appends the arguments. So a method that is read back and called has the table, the
captured locals and the arguments as its first locals, in this order, however many there are, and
whatever segments they take.

Nothing is shared on the way. The closure that was stored is as it was, and so is its record; and a
method that is stored in a second table becomes a method of that one, while the first stays a method
of the first.

## Main definitions

* `Heap.upvalues` — what a closure has captured besides the object it is called on
* `Heap.KeepsMethod` — a method is as it was
* `Machine.StoresMethod` — a closure has been stored as a method

## Main results

* `Heap.keepsMethod_collect` — a collection that leaves a closure leaves its record
* `Machine.ends_bindClosure` — a closure is bound to a table
* `Machine.method_binding` — methods that are stored, read back, called and stored again
-/

namespace SwarmVm

namespace Heap

variable {h h' : Heap} {a r : Ref}

/-- What a closure has captured, from position 1 on. -/
def upvalues (h : Heap) (c : Closure) : List Ref :=
  (c.captured.elim [] h.arrayElements).tail

/-- The closure `method` and its activation record `record` are in `h'` as they are in `h`. -/
structure KeepsMethod (h h' : Heap) (method record : Ref) : Prop where
  /-- The closure is as it was, -/
  closure : Unaltered h h' method
  /-- and so is its record. -/
  record : Unaltered h h' record

/-- A collection that leaves a closure leaves its record. -/
theorem keepsMethod_collect (wf : h.WellFormed) {roots : List Ref} {c : Closure} {record : Ref}
    (hr : h.value r = .closure c) (hc : c.captured = some record) (ha : h.isValid record = true)
    (hv : (h.collect roots).2.isValid r = true) : KeepsMethod h (h.collect roots).2 r record where
  closure := unaltered_collect wf hv
  record := unaltered_collect wf (isValid_of_captured wf.layout ha (by rw [hr]; exact hc) hv)

end Heap

namespace Machine

open Heap (Grows KeepsMethod KeepsTable Spares Unaltered slotRef)

variable {F : Type} {m m₁ m₂ m' : Machine F} {t key r self captured record : Ref} {c : Closure}
  {below l : List Ref}

/-! ### The stack -/

/-- The machine with other objects on its stack. -/
def withSlots (m : Machine F) (l : List Ref) : Machine F :=
  { m with stack := { m.stack with slots := l.toArray } }

@[simp] theorem withSlots_heap (m : Machine F) (l : List Ref) : (m.withSlots l).heap = m.heap := rfl

@[simp] theorem withSlots_withSlots (m : Machine F) (l l' : List Ref) :
    (m.withSlots l).withSlots l' = m.withSlots l' := rfl

/-- The current call has the objects `l` on the stack, the last one on top, over `below`. -/
structure HasOperands (m : Machine F) (below l : List Ref) : Prop where
  /-- The objects on the stack. -/
  slots : m.stack.slots.toList = below ++ l
  /-- The floor of the call is not above those that count. -/
  floor : m.stack.base ≤ below.length

theorem HasOperands.withSlots (op : HasOperands m below l) (l' : List Ref) :
    HasOperands (m.withSlots (below ++ l')) below l' := ⟨rfl, op.floor⟩

/-- An access to a table that is there is not noted, whatever is on the stack. -/
theorem touch_withSlots (hm : m.Sound) (ht : m.heap.IsTable t) (l : List Ref) :
    touch t (m.withSlots l) = .ok () (m.withSlots l) :=
  touch_eq (m := m.withSlots l) hm.wellFormed fun _ => ht.1

theorem HasOperands.depth (op : HasOperands m below l) :
    m.stack.depth = below.length + l.length := by
  rw [OperandStack.depth, ← Array.length_toList, op.slots, List.length_append]

theorem HasOperands.pop_eq (op : HasOperands m below (l ++ [r])) :
    pop m = .ok r (m.withSlots (below ++ l)) := by
  have hd := op.depth
  have hslots : m.stack.slots = (below ++ l ++ [r]).toArray := by
    rw [List.append_assoc, ← op.slots]
  have hfloor := op.floor
  rw [List.length_append, List.length_singleton] at hd
  have htop : m.stack.slots.getD (m.stack.depth - 1) 0 = r := by
    rw [OperandStack.depth, hslots]
    simp
  have hrest : m.stack.slots.pop = (below ++ l).toArray := by
    rw [hslots]
    simp
  rw [pop, OperandStack.pop, if_neg (by omega), htop, hrest]
  rfl

theorem push_eq (hs : m.stack.slots.toList = l) (hroom : l.length < m.stack.capacity) (r : Ref) :
    push r m = .ok () (m.withSlots (l ++ [r])) := by
  have hslots : m.stack.slots = l.toArray := by rw [← hs]
  have hpush : m.stack.slots.push r = (l ++ [r]).toArray := by
    rw [hslots]
    simp
  have hdepth : m.stack.depth < m.stack.capacity := by
    rwa [OperandStack.depth, hslots, List.size_toArray]
  rw [push, OperandStack.push, if_pos hdepth, hpush]
  rfl

theorem HasOperands.popPair_eq {a b : Ref} (op : HasOperands m below (l ++ [a, b])) :
    popPair m = .ok (a, b) (m.withSlots (below ++ l)) := by
  have op₁ : HasOperands m below ((l ++ [a]) ++ [b]) := by simpa using op
  rw [popPair, bind_of_ok op₁.pop_eq, bind_of_ok (op₁.withSlots (l ++ [a])).pop_eq]
  rfl

theorem sound_withSlots (hm : m.Sound) (hfloor : m.stack.base ≤ l.length)
    (hl : l.length ≤ m.stack.capacity) : (m.withSlots l).Sound :=
  ⟨hm.wellFormed, hm.tidy, by simpa [withSlots, OperandStack.depth] using hfloor,
    by simpa [withSlots, OperandStack.depth] using hl⟩

/-! ### Binding -/

theorem Grown.expands (g : Grown m m') : Expands m m' := by
  obtain ⟨h, hg, -, rfl⟩ := g
  exact ⟨rfl, hg⟩

/-- An array that is being filled. -/
structure DraftsRecord (m : Machine F) (record : Ref) (l : List Ref) (m' : Machine F) : Prop
    extends Drafts m record m' where
  /-- What it holds so far. -/
  holds : m'.heap.Holds record l

/-- An object is appended. -/
theorem DraftsRecord.ends_arrayPush (d : DraftsRecord m record l m₁) (r : Ref) :
    Ends (arrayPush record r) m₁ (fun _ m' => DraftsRecord m record (l ++ [slotRef r]) m')
      fun _ _ => True := by
  have wf := d.grows.wellFormed
  refine ends_bind (Q := fun _ m' => m' = m₁) ?_ fun _ m' he => ?_
  · rw [ends_iff, touch_eq wf fun _ => d.isTable.1]
  subst he
  refine (ends_onHeap_of (((Heap.holds_arrayPush wf d.holds r).and (Heap.spares_arrayPush wf
    (fun _ => d.isTable.1) r)).and (Heap.evolves_arrayPush (A := Set.univ) wf
    (fun _ => d.isTable.1) (Set.mem_univ _)))).imp ?_ fun _ _ _ => trivial
  rintro _ _ ⟨h, ⟨⟨hl, sp⟩, ev⟩, rfl⟩
  exact ⟨d.alter ev sp, hl⟩

theorem ends_selfRecord (hm : m.Sound) (self : Ref) : Ends (selfRecord self) m
    (fun record m' => DraftsRecord m record [slotRef self] m') fun _ _ => True := by
  have wf := hm.wellFormed
  refine ends_bind (Q := fun record m' => DraftsRecord m record [] m') ((ends_onHeap_of
    (((Heap.holds_arrayNew wf).and (Heap.newObject_arrayNew (A := Set.univ) wf)).and
      ((Heap.spares_arrayNew wf)))).imp ?_ fun _ _ _ => trivial) fun record m₁ d =>
        ends_bind (d.ends_arrayPush self) fun _ _ d => ends_pure d
  rintro record _ ⟨h, ⟨⟨hl, n, ht⟩, sp⟩, rfl⟩
  exact ⟨⟨⟨rfl, n.evolves.wellFormed, n.evolves.tidy, sp⟩, n.free, ht⟩, hl⟩

/-- A copy whose position zero is overwritten, or appended when the original is empty. -/
theorem ends_rebind (hm : m.Sound) (captured self : Ref) : Ends (rebind captured self) m
    (fun record m' => DraftsRecord m record
      (slotRef self :: (m.heap.arrayElements captured).tail) m') fun _ _ => True := by
  refine ends_bind ((ends_arrayClone hm captured).imp (fun _ _ => id) fun _ _ _ => trivial)
    fun record m₁ h₁ => ?_
  obtain ⟨g, free, hl⟩ := h₁
  have d : DraftsRecord m record (m.heap.arrayElements captured) m₁ :=
    ⟨⟨g.expands, free, hl.isTable⟩, hl⟩
  generalize m.heap.arrayElements captured = l at d
  have wf := d.grows.wellFormed
  refine ends_bind (Q := fun _ m' => m' = m₁) ?_ fun _ m' he => ?_
  · rw [ends_iff, touch_eq wf fun _ => d.isTable.1]
  subst he
  refine ends_bind (Q := fun _ m₂ => m₂ = m') ?_ fun _ m₂ he => ?_
  · rw [ends_iff, touchSlot_eq d.isTable.1]
  subst he
  refine ends_bind ends_changeHeap fun _ m₃ h₃ => ?_
  obtain ⟨-, rfl⟩ := h₃
  have ev : Heap.Evolves ∅ ∅ m₂.heap (m₂.heap.setFlagB record false) :=
    Heap.evolves_setFlagB wf d.isTable false
  have d' : DraftsRecord m record l { m₂ with heap := m₂.heap.setFlagB record false } :=
    ⟨d.alter ev (Heap.spares_setHeader wf d.isTable.1 _), d.holds.setFlagB wf false⟩
  clear d hl
  generalize ({ m₂ with heap := m₂.heap.setFlagB record false } : Machine F) = m₃ at d'
  have wf₃ := d'.grows.wellFormed
  have valid : m₃.heap.kind record = .table → m₃.heap.isValid record = true :=
    fun _ => d'.isTable.1
  refine ends_bind ends_changeHeap fun done m₄ h₄ => ?_
  obtain ⟨hdone, rfl⟩ := h₄
  obtain rfl := hdone.symm
  cases l with
  | nil =>
    rw [Heap.arraySet_of_le d'.holds (Nat.zero_le _)]
    exact ends_bind (d'.ends_arrayPush self) fun _ _ d'' => ends_pure d''
  | cons e l =>
    obtain ⟨s, -, hset, hl⟩ := d'.holds.arraySet wf₃ (Nat.succ_pos _) self
    have ev := Heap.evolves_arraySet (A := Set.univ) wf₃ valid 0 (Set.mem_univ (slotRef self))
    have sp := Heap.spares_arraySet wf₃ valid 0 self
    rw [hset] at ev sp ⊢
    exact ends_pure ⟨d'.alter ev sp, hl⟩

/-- `method` is a closure of the target of `c`, and its activation record, which is new, holds `t`
and behind it what `c` has captured from position 1 on. -/
structure Binds (m : Machine F) (t : Ref) (c : Closure) (method record : Ref) (m' : Machine F) :
    Prop extends Expands m m' where
  /-- The closure leads where `c` leads. -/
  value : m'.value method = .closure ⟨c.target, some record⟩
  /-- The record is new. -/
  free : m.heap.isValid record = false
  /-- It holds the table and the captured locals. -/
  holds : m'.heap.Holds record (t :: m.heap.upvalues c)

/-- A closure is bound to a table. -/
theorem ends_bindClosure (hm : m.Sound) (ht : m.heap.IsTable t) (hr : m.value r = .closure c) :
    Ends (bindClosure t r) m (fun method m' => ∃ record, Binds m t c method record m')
      fun _ _ => True := by
  have hself : slotRef t = t := Heap.slotRef_of_isValid hm.wellFormed.layout ht.1
  have alloc : ∀ {record m₁}, DraftsRecord m record (slotRef t :: m.heap.upvalues c) m₁ →
      Ends (alloc (.closure { c with captured := some record })) m₁
        (fun method m' => ∃ record, Binds m t c method record m') fun _ _ => True := by
    intro record m₁ d
    refine (ends_alloc d.grows.wellFormed (by simp) (by simp)).imp (fun method m' h => ?_)
      fun _ _ _ => trivial
    obtain ⟨x, hv⟩ := h
    exact ⟨record, d.toExpands.trans x, hv, d.free,
      hself ▸ d.holds.unaltered (x.unaltered d.isTable.1)⟩
  refine ends_get_bind ?_
  rw [hr]
  simp only [Value.asClosure?]
  split
  · next captured hc =>
    refine ends_bind (ends_rebind hm captured t) fun _ _ d => alloc ?_
    rwa [Heap.upvalues, hc]
  · next hc =>
    refine ends_bind (ends_selfRecord hm t) fun _ _ d => alloc ?_
    rwa [Heap.upvalues, hc]

/-! ### Storing -/

/-- The closure `c`, which is the object `r`, has been stored under `key` in the table `t`: between
`m` and `m'`, the closure `method` with the activation record `record` was put there. -/
structure StoresMethod (m : Machine F) (t key r : Ref) (c : Closure) (method record : Ref)
    (m' : Machine F) : Prop where
  /-- The method leads where `c` leads, with a record of its own, -/
  value : m'.value method = .closure ⟨c.target, some record⟩
  /-- which holds the table and what `c` has captured from position 1 on. -/
  holds : m'.heap.Holds record (t :: m.heap.upvalues c)
  /-- It is read under every key that is equal to the given one. -/
  get : ∀ key', m'.heap.compare key' key = .eq → m'.heap.tableGet? t key' = some method
  /-- The closure that was stored is as it was, -/
  original : m'.value r = .closure c
  /-- and so is its record, which is another one. -/
  captured : ∀ a, c.captured = some a → a ≠ record ∧ Unaltered m.heap m'.heap a
  /-- The table is still there, -/
  isTable : m'.heap.IsTable t
  /-- and is no array. -/
  isArray : m'.heap.isArray t = false

theorem tableHead_eq {h h' : Heap} (u : Unaltered h h' t) (ht : h.IsTable t) :
    h'.tableHead t = h.tableHead t := by
  obtain ⟨tv, hv, hh⟩ := ht.value
  rw [← hh, ← Heap.head_eq_tableHead (u.value.trans hv)]

/-- What is bound to a table is stored in it. -/
theorem Binds.ends_tableSet {method record : Ref} (hm : m.Sound) (ht : m.heap.IsTable t)
    (hna : m.heap.isArray t = false) (hhead : m.heap.tableHead t ≠ Heap.noNext)
    (hkey : m.heap.kind key ≠ .nil) (hr : m.value r = .closure c)
    (hc : ∀ a, c.captured = some a → m.heap.IsRecord a) (b : Binds m t c method record m₁) :
    Ends (tableSet t key method) m₁ (fun _ m' => StoresMethod m t key r c method record m')
      fun _ _ => True := by
  have wf := b.grows.wellFormed
  have tidy := b.grows.tidy hm.tidy
  have u := b.unaltered ht.1
  have ht₁ := u.isTable ht
  have hkv := hm.tidy.isValid_of_kind hkey
  have hkey₁ : m₁.heap.kind key ≠ .nil := by rwa [(b.unaltered hkv).kind hkv]
  have closure : ∀ {g : Heap} {r c}, g.value r = .closure c → g.kind r = .closure :=
    fun hv => (Heap.kind_of_value hv (by simp)).2
  have ur := b.unaltered (r := r) (Heap.kind_of_value hr (by simp)).1
  have store := ((Heap.get_tableSet wf tidy ht₁ (by rwa [tableHead_eq u ht]) hkey₁
    (v := method) (by simp [closure b.value])).and (Heap.resembles_tableSet wf (fun _ => ht₁.1) key
      method)).and (Heap.spares_tableSet wf (fun _ => ht₁.1) key method)
  refine ends_bind (Q := fun _ m' => m' = m₁) ?_ fun _ m' he => ?_
  · rw [ends_iff, touch_eq wf fun _ => ht₁.1]
  subst he
  refine (ends_onHeap_of store).imp ?_ fun _ _ _ => trivial
  rintro _ _ ⟨h, ⟨⟨get, al⟩, sp⟩, rfl⟩
  have value : ∀ {r c}, m'.value r = .closure c → h.value r = .closure c :=
    fun hv => (al.value _ (by simp [closure hv])).trans hv
  have ne : record ≠ t := by
    rintro rfl
    exact Bool.false_ne_true (b.free.symm.trans ht.1)
  refine ⟨value b.value, b.holds.unaltered (sp.unaltered_of_ne ne b.holds.isValid),
    fun key' he => get key' (al.alike_iff.1 he), value (ur.value.trans hr), fun a ha => ?_,
    ⟨(al.isValid t).trans ht₁.1, (al.kind t).trans ht₁.2⟩,
    (al.isArray t).trans ((u.isArray ht).trans hna)⟩
  obtain ⟨hv, harray⟩ := hc a ha
  refine ⟨?_, (b.unaltered hv).trans (sp.unaltered_of_ne ?_ (b.unaltered hv).isValid)⟩
  · rintro rfl
    rw [b.free] at hv
    cases hv
  · rintro rfl
    rw [hna] at harray
    cases harray

/-- A closure that is stored in a table becomes a method. -/
theorem ends_putField (hm : m.Sound) (op : HasOperands m below [t, key, r])
    (hhead : m.heap.tableHead t ≠ Heap.noNext) (hkey : m.heap.kind key ≠ .nil)
    (hr : m.value r = .closure c) (hc : ∀ a, c.captured = some a → m.heap.IsRecord a) :
    Ends putField m (fun _ m' => ∃ method record, StoresMethod m t key r c method record m')
      fun _ _ => True := by
  have op₁ : HasOperands m below ([t, key] ++ [r]) := op
  have hd := op.depth
  refine ends_bind (ends_of_ok op₁.pop_eq) fun _ _ h => ?_
  obtain ⟨rfl, rfl⟩ := h
  refine ends_bind (ends_of_ok (op₁.withSlots ([] ++ [t, key])).popPair_eq) fun _ m₀ h => ?_
  obtain ⟨rfl, rfl⟩ := h
  have hceiling := hm.ceiling
  simp only [List.length_cons, List.length_nil] at hd
  have hm₀ : (m.withSlots (below ++ [])).Sound :=
    sound_withSlots hm (by simpa using op.floor) (by simp; omega)
  refine ends_bind (ends_get_bind (ends_require_cases _ _) |>.imp (fun _ _ => id)
    fun _ _ _ => trivial) fun _ m' h => ?_
  obtain ⟨rfl, htable⟩ := h
  rw [Bool.and_eq_true, decide_eq_true_eq, Bool.not_eq_true', withSlots_withSlots,
    withSlots_heap] at htable
  have ht : m.heap.IsTable t := ⟨hm.tidy.isValid_of_kind (by rw [htable.1]; decide), htable.1⟩
  refine ends_bind (ends_bindClosure hm₀ ht hr) fun method m₁ b => ?_
  obtain ⟨record, b⟩ := b
  exact (b.ends_tableSet hm₀ ht htable.2 hhead hkey hr hc).imp
    (fun _ _ st => ⟨method, record, { st with }⟩) fun _ _ => id

/-! ### Reading and calling -/

/-- A method that is found is put in the place of the table and the key. -/
theorem getField_eq {method : Ref} (hm : m.Sound) (op : HasOperands m below [t, key])
    (ht : m.heap.IsTable t) (hna : m.heap.isArray t = false)
    (hget : m.heap.tableGet? t key = some method) :
    getField m = .ok () (m.withSlots (below ++ [method])) := by
  have op₁ : HasOperands m below ([] ++ [t, key]) := op
  have hd := op.depth
  have hceiling := hm.ceiling
  have hexpect : expectTable t (m.withSlots (below ++ []))
      = .ok () (m.withSlots (below ++ [])) := by
    rw [expectTable, get_bind_apply, withSlots_heap, ht.2, hna]
    rfl
  have htable : tableGet t key (m.withSlots (below ++ []))
      = .ok method (m.withSlots (below ++ [])) := by
    rw [tableGet, bind_of_ok (touch_withSlots hm ht _), get_bind_apply, withSlots_heap, hget]
    rfl
  rw [getField, bind_of_ok op₁.popPair_eq]
  simp only
  rw [bind_of_ok hexpect, bind_of_ok htable, push_eq (l := below ++ []) rfl, withSlots_withSlots,
    List.append_nil]
  change (below ++ []).length < m.stack.capacity
  rw [List.append_nil]
  simp only [List.length_cons, List.length_nil] at hd
  omega

/-- What is on the stack, counted from the operands on. -/
theorem HasOperands.getD_eq (op : HasOperands m below l) (i : Nat) :
    m.stack.slots.getD (below.length + i) 0 = l.getD i 0 := by
  rw [Array.getD_eq_getD_getElem?, ← Array.getElem?_toList, op.slots,
    List.getElem?_append_right (Nat.le_add_right _ _), Nat.add_sub_cancel_left,
    List.getD_eq_getElem?_getD]

/-- The operands of a call, as they stand on the stack. -/
theorem HasOperands.call {args : List Ref} {count closure : Ref}
    (op : HasOperands m below (args.reverse ++ [count, closure])) :
    m.stack.slots.getD (m.stack.depth - 1) 0 = closure
      ∧ m.stack.slots.getD (m.stack.depth - 2) 0 = count ∧ m.arguments args.length = args := by
  have hd : m.stack.depth = below.length + (args.length + 2) := by
    simpa using op.depth
  refine ⟨?_, ?_, List.ext_getElem (by simp [arguments]) fun k _ hk => ?_⟩
  · rw [show m.stack.depth - 1 = below.length + (args.length + 1) by omega, op.getD_eq]
    simp [List.getD_eq_getElem?_getD]
  · rw [show m.stack.depth - 2 = below.length + args.length by omega, op.getD_eq]
    simp [List.getD_eq_getElem?_getD]
  · have hindex : m.stack.depth - 1 - (2 + k) = below.length + (args.length - 1 - k) := by omega
    simp only [arguments, List.getElem_map, List.getElem_range, hindex, op.getD_eq]
    rw [List.getD_eq_getElem?_getD, List.getElem?_append_left (by rw [List.length_reverse]; omega),
      List.getElem?_reverse (by omega), show args.length - 1 - (args.length - 1 - k) = k by omega,
      List.getElem?_eq_getElem hk, Option.getD_some]

/-- A method is called with its table first, then what it has captured, then the arguments. -/
theorem begun_method {method record count : Ref} {target : Target} {args l : List Ref} {i : Int16}
    (hm : m.Sound) (hv : m.value method = .closure ⟨target, some record⟩)
    (hl : m.heap.Holds record l)
    (op : HasOperands m below (args.reverse ++ [count, method])) (hcount : m.value count = .int i)
    (hi : i.toInt = args.length) (hargs : ∀ a ∈ args, m.heap.isValid a = true) :
    Ends enter m (fun target' m' => target' = target ∧ m.heap.Grows m'.heap
      ∧ m'.heap.arrayElements m'.locals = l ++ args) fun _ m' => Grown m m' := by
  obtain ⟨htop, hnext, harguments⟩ := op.call
  refine (begun_enter hm).imp ?_ fun _ _ => id
  rintro target' m' ⟨c, argc, hc, rfl, operands, b⟩
  rw [htop, hv, Value.closure.injEq] at hc
  subst hc
  obtain ⟨⟨j, hj, hargc⟩, -⟩ := operands
  rw [hnext, hcount, Value.int.injEq] at hj
  subst hj
  obtain rfl : argc = args.length := by omega
  have hrefs : args.map slotRef = args := by
    refine (List.map_congr_left fun a ha => ?_).trans (List.map_id args)
    exact Heap.slotRef_of_isValid hm.wellFormed.layout (hargs a ha)
  refine ⟨rfl, b.grows, ?_⟩
  rw [b.holds.arrayElements, harguments, hrefs, Option.getD_some, hl.arrayElements]

/-! ### Methods -/

/-- **Method binding.** A closure `c` is stored under a key in a table `t`. What is put there is
another closure, `method`, which leads to the same code; it is read under every key that is equal to
the given one, and `c` and the record that `c` has captured are as they were. From then on,

* as long as the table and the values of its keys are as they were, a look-up under a key that is
  equal to the given one, whether by itself or by its value, puts `method` on the stack;
* as long as `method` and its record are as they were, a call of it with any arguments starts with
  `t`, followed by what `c` had captured from position 1 on, followed by the arguments, and alters
  no object;
* as long as `method` and its record are as they were, storing it in another table `t₂` puts a
  closure there whose record holds `t₂` in place of `t` and is the same behind it, and the record of
  `method` itself is as it was.

A table has a first segment: every table that can be made has one (`Heap.TableBuilt.mapped`). What a
closure has captured is an array (`Attained.secluded`). A call may fail, for want of room on the
heap or the stack or because the code is not there; then nothing is altered. -/
theorem method_binding (hm : m.Sound) (op : HasOperands m below [t, key, r])
    (hhead : m.heap.tableHead t ≠ Heap.noNext) (hkey : m.heap.kind key ≠ .nil)
    (hr : m.value r = .closure c) (hc : ∀ a, c.captured = some a → m.heap.IsRecord a)
    (hput : putField m = .ok () m₁) :
    ∃ method record, StoresMethod m t key r c method record m₁
      ∧ (∀ (m₂ : Machine F) below key', m₂.Sound → KeepsTable m₁.heap m₂.heap t →
          m₁.heap.Equals key m₂.heap key' → HasOperands m₂ below [t, key'] →
          getField m₂ = .ok () (m₂.withSlots (below ++ [method])))
      ∧ (∀ (m₃ : Machine F) below args count i, m₃.Sound →
          KeepsMethod m₁.heap m₃.heap method record →
          HasOperands m₃ below (args.reverse ++ [count, method]) →
          m₃.value count = .int i → i.toInt = args.length →
          (∀ a ∈ args, m₃.heap.isValid a = true) →
          Ends enter m₃ (fun target m₄ => target = c.target ∧ m₃.heap.Grows m₄.heap
            ∧ m₄.heap.arrayElements m₄.locals = (t :: m.heap.upvalues c) ++ args)
            fun _ m₄ => Grown m₃ m₄)
      ∧ ∀ (m₅ m₆ : Machine F) below t₂ key₂, m₅.Sound →
          KeepsMethod m₁.heap m₅.heap method record → HasOperands m₅ below [t₂, key₂, method] →
          m₅.heap.tableHead t₂ ≠ Heap.noNext → m₅.heap.kind key₂ ≠ .nil →
          putField m₅ = .ok () m₆ →
          ∃ method₂ record₂,
            StoresMethod m₅ t₂ key₂ method ⟨c.target, some record⟩ method₂ record₂ m₆
            ∧ m₆.heap.arrayElements record₂ = t₂ :: m.heap.upvalues c
            ∧ m₆.heap.arrayElements record = t :: m.heap.upvalues c := by
  obtain ⟨method, record, st⟩ := (ends_putField hm op hhead hkey hr hc).of_ok hput
  have value : ∀ {h}, KeepsMethod m₁.heap h method record →
      h.value method = .closure ⟨c.target, some record⟩ := fun km => km.closure.value.trans st.value
  refine ⟨method, record, st, fun m₂ below key' hm₂ kt he op₂ => ?_,
    fun m₃ below args count i hm₃ km op₃ hcount hi hargs => ?_,
    fun m₅ m₆ below t₂ key₂ hm₅ km op₅ hhead₂ hkey₂ hput₂ => ?_⟩
  · refine getField_eq hm₂ op₂ (kt.table.isTable st.isTable)
      ((kt.table.isArray st.isTable).trans st.isArray) ?_
    rw [kt.tableGet? he]
    exact st.get key ((Heap.alike_equivalence _).refl key)
  · exact begun_method hm₃ (value km) (st.holds.unaltered km.record) op₃ hcount hi hargs
  · have hl := st.holds.unaltered km.record
    have hc₂ : ∀ a, (⟨c.target, some record⟩ : Closure).captured = some a → m₅.heap.IsRecord a := by
      rintro a ⟨⟩
      exact ⟨hl.isValid, hl.isArray⟩
    obtain ⟨method₂, record₂, st₂⟩ :=
      (ends_putField hm₅ op₅ hhead₂ hkey₂ (value km) hc₂).of_ok hput₂
    refine ⟨method₂, record₂, st₂, ?_, ?_⟩
    · rw [st₂.holds.arrayElements, Heap.upvalues, Option.elim_some, hl.arrayElements,
        List.tail_cons]
    · rw [(st₂.captured record rfl).2.arrayElements, hl.arrayElements]

/-! ### A method that is stored and called -/

theorem hasOperands_withSlots (hbase : m.stack.base = 0) : HasOperands (m.withSlots l) [] l :=
  ⟨rfl, hbase.le⟩

/-- A method is still read after a collection, under any object that is equal to its key and
outlives it. -/
theorem getField_collected {key' method : Ref} (hm : (m.withSlots [t, key']).Sound)
    (op : HasOperands (m.withSlots [t, key']) [] [t, key'])
    (hroom : (m.withSlots [t, key']).stack.hasRoom (m.withSlots [t, key']).ambient.length = true)
    (ht : m.heap.IsTable t) (hv : m.heap.isValid key' = true)
    (equal : (m.value key').order (m.value key) = .eq)
    (reads : ∀ (m₂ : Machine F) below key', m₂.Sound → KeepsTable m.heap m₂.heap t →
      m.heap.Equals key m₂.heap key' → HasOperands m₂ below [t, key'] →
      getField m₂ = .ok () (m₂.withSlots (below ++ [method]))) :
    ∃ m₂, collectGarbage (m.withSlots [t, key']) = .ok () m₂
      ∧ getField m₂ = .ok () (m₂.withSlots [method]) := by
  have layout := hm.wellFormed.layout
  obtain ⟨log, hcollect⟩ := collectGarbage_of_room hroom
  -- what is on the stack outlives the collection
  have outlives : ∀ r ∈ [t, key'], m.heap.isValid r = true → (m.heap.collect
      ([t, key'] ++ (m.withSlots [t, key']).ambient)).2.isValid r = true := fun r hr hv =>
    (Heap.isValid_collect_iff layout).2 ⟨hv, r, hv, .inl (List.mem_append_left _ hr), .refl⟩
  refine ⟨_, hcollect, reads _ [] key' ⟨Heap.wellFormed_collect hm.wellFormed _,
    Heap.tidy_collect layout hm.tidy _, hm.floor, hm.ceiling⟩
    (Heap.keepsTable_collect hm.wellFormed ht (outlives t (by simp) ht.1)) (.inr ?_)
    ⟨op.slots, op.floor⟩⟩
  have same := Heap.value_collect layout (outlives key' (by simp) hv)
  exact (congrArg (fun v => v.order (m.value key)) same).trans equal

/-- Two tables, two strings with one name, and a closure that has captured two locals. -/
def furnishing : List Heap.Request :=
  [.allocValue .nil, .tableNew, .tableNew, .allocValue (.string 7), .allocValue (.string 7),
    .arrayNew, .allocValue (.int 1), .arrayPush 5 0, .arrayPush 5 6,
    .allocValue (.closure ⟨.code 0, some 5⟩)]

/-- The heap that is furnished like this. -/
@[irreducible] def workshopHeap : Heap :=
  furnishing.foldl Heap.Request.perform (Heap.make 192)

theorem workshopHeap_eq : workshopHeap = .laidOut
    [(.nil, false), (.table ⟨0, false, false⟩, false), (.table ⟨1, false, false⟩, false),
      (.string 7, false), (.string 7, false), (.table ⟨2, true, false⟩, false), (.int 1, false),
      (.closure ⟨.code 0, some 5⟩, false)] 86
    [[0, 6], [], []] := by
  unfold workshopHeap furnishing
  exact Heap.SameBytes.eq (by decide +kernel)

/-- A machine that is about to store the closure in the first table, -/
def workshop : Machine Empty :=
  { blank { heapSize := 192 } 0 5 1 2 workshopHeap with
    code := #[Opcode.ret0.byte]
    stack := { slots := #[1, 3, 7], capacity := 16 } }

/-- and the machine that has stored it. -/
def equipped : Machine Empty := stateAfter putField workshop

theorem sound_workshop : workshop.Sound := by
  have wf : workshopHeap.WellFormed ∧ workshopHeap.Tidy := by
    unfold workshopHeap
    exact (Heap.Built.foldl (.make (by decide))
      (by simp [furnishing, Heap.Request.Allowed])).wellFormed
  exact ⟨wf.1, wf.2, by decide, by decide⟩

theorem workshop_evaluates : workshop.value 7 = .closure ⟨.code 0, some 5⟩
    ∧ workshop.heap.isValid 5 = true ∧ workshop.heap.isArray 5 = true
    ∧ workshop.heap.arrayElements 5 = [0, 6]
    ∧ workshop.heap.kind 3 ≠ .nil ∧ workshop.heap.tableHead 1 ≠ Heap.noNext
    ∧ answers putField workshop = true
    ∧ equipped.stack = { capacity := 16 } ∧ equipped.heap.tableGet? 1 3 = some 9
    ∧ (equipped.heap.isValid 4 = true ∧ (equipped.value 4).order (equipped.value 3) = .eq
      ∧ (equipped.withSlots [1, 4]).stack.hasRoom (equipped.withSlots [1, 4]).ambient.length = true)
    ∧ ((equipped.withSlots [6, 6, 9]).value 6 = .int 1
      ∧ (equipped.withSlots [6, 6, 9]).heap.isValid 6 = true
      ∧ answersWith enter (equipped.withSlots [6, 6, 9]) (fun _ _ => true) = true)
    ∧ (equipped.withSlots [2, 3, 9]).heap.tableHead 2 ≠ Heap.noNext
    ∧ (equipped.withSlots [2, 3, 9]).heap.kind 3 ≠ .nil
    ∧ answers putField (equipped.withSlots [2, 3, 9]) = true := by
  rw [equipped, workshop, workshopHeap_eq]
  decide +kernel

/-- The closure has captured nil and an integer. It is stored in the table 1 under the string 3,
and read back under the string 4, after a collection. A call of it starts with the table in place of
the nil, and when it is stored in the table 2 it starts with that one. -/
theorem method_binding_workshop : workshop.Sound ∧ workshop.value 7 = .closure ⟨.code 0, some 5⟩
    ∧ workshop.heap.arrayElements 5 = [0, 6] ∧ putField workshop = .ok () equipped
    ∧ (∃ m₂, collectGarbage (equipped.withSlots [1, 4]) = .ok () m₂
      ∧ getField m₂ = .ok () (m₂.withSlots [9]))
    ∧ (∃ m₄, enter (equipped.withSlots [6, 6, 9]) = .ok (.code 0) m₄
      ∧ m₄.heap.arrayElements m₄.locals = [1, 6, 6])
    ∧ ∃ m₆ method₂ record₂, putField (equipped.withSlots [2, 3, 9]) = .ok () m₆
      ∧ m₆.value method₂ = .closure ⟨.code 0, some record₂⟩
      ∧ m₆.heap.arrayElements record₂ = [2, 6] := by
  obtain ⟨hr, hvalid, harray, helements, hkey, hhead, hput, hstack, hget,
    ⟨hother, hequal, hroom⟩, ⟨hcount, hint, hcall⟩, hhead₂, hkey₂, hput₂⟩ := workshop_evaluates
  have hput := eq_ok_of_answers hput
  have hc : ∀ a, (⟨.code 0, some 5⟩ : Closure).captured = some a → workshop.heap.IsRecord a := by
    rintro a ⟨⟩
    exact ⟨hvalid, harray⟩
  have operands : HasOperands workshop [] [1, 3, 7] := ⟨rfl, Nat.le_refl 0⟩
  obtain ⟨method, record, st, reads, calls, stores⟩ :=
    method_binding sound_workshop operands hhead hkey hr hc hput
  obtain rfl : method = 9 := by
    have hread := st.get 3 ((Heap.alike_equivalence _).refl 3)
    exact Option.some.inj (hread.symm.trans hget)
  have sound : equipped.Sound :=
    ((yields_putField Heap.reliance_arbitrary sound_workshop.reliable).of_ok hput).1.reliable.sound
  have sound' : ∀ l : List Ref, l.length ≤ 16 → (equipped.withSlots l).Sound := fun l hl =>
    sound_withSlots sound (by rw [hstack]; exact Nat.zero_le _) (by rw [hstack]; exact hl)
  have op : ∀ l, HasOperands (equipped.withSlots l) [] l := fun l =>
    hasOperands_withSlots (by rw [hstack])
  have captures : workshop.heap.upvalues ⟨.code 0, some 5⟩ = [6] := by
    rw [Heap.upvalues, Option.elim_some, helements]
    rfl
  have km : ∀ l, KeepsMethod equipped.heap (equipped.withSlots l).heap 9 record := by
    intro l
    rw [withSlots_heap]
    exact ⟨.refl (Heap.kind_of_value st.value (by simp)).1, .refl st.holds.isValid⟩
  refine ⟨sound_workshop, hr, helements, hput, ?_, ?_, ?_⟩
  · exact getField_collected (sound' [1, 4] (by simp)) (op [1, 4]) hroom st.isTable hother hequal
      reads
  · obtain ⟨target, m₄, henter, -⟩ := exists_of_answersWith hcall
    have there : ∀ a ∈ [6], (equipped.withSlots [6, 6, 9]).heap.isValid a = true := fun a ha =>
      List.mem_singleton.1 ha ▸ hint
    obtain ⟨rfl, -, hlocals⟩ := (calls _ [] [6] 6 1 (sound' _ (by simp)) (km _) (op _) hcount
      (by decide) there).of_ok henter
    rw [captures] at hlocals
    exact ⟨m₄, henter, hlocals⟩
  · have hput₂ := eq_ok_of_answers hput₂
    obtain ⟨method₂, record₂, st₂, hlocals, -⟩ := stores _ _ [] 2 3 (sound' _ (by simp)) (km _)
      (op _) hhead₂ hkey₂ hput₂
    rw [captures] at hlocals
    exact ⟨_, method₂, record₂, hput₂, st₂.value, hlocals⟩

end Machine

end SwarmVm
