import SwarmVm.Proofs.Heap.Captures
import SwarmVm.Proofs.Machine.HostFunctions

/-!
# Arrays that are looked after

A call of a closure that captured nothing starts with a copy of the default record, which holds nil
and nothing else. This is so for every call, so the default record must never be written to. Nor
must the record that a closure has captured, and an activation record belongs to its call alone, so
that no closure may get hold of it.

The objects that instructions and host functions write to are few: the globals, the listeners, the
current locals, what they have just made, and tables that a script has put on its stack. Arrays are
not accepted as tables, and new closures capture new arrays. So everything that is confined to a
call leaves an array alone that it has not made, except that storing a local and returning write to
the locals. Nothing is asked here of the objects that a script handles.

An array is not taken by a collection if the machine holds on to it, or if a closure is left that
captured it.

## Main definitions

* `Ward` — an array that is looked after, and why
* `Machine.Apart`, `Machine.Safe` — it is there, and not among the tables of the machine
* `Machine.Spared`, `Machine.Minded` — it is unaltered, or so unless it holds the locals
* `Machine.Shelters`, `Machine.Concludes` — actions that leave it alone, and such that end with a
  return

## Main results

* `Machine.ends_perform` — instructions
* `Machine.shelters_collectGarbage` — collections
* `Machine.concludes_leaveFrame` — returns
-/

namespace SwarmVm

open Heap (Captures Mints)

/-- An array that is looked after. -/
inductive Ward where
  /-- The default record. Closures may have captured it. -/
  | plain (a : Ref)
  /-- An activation record, or the default record; no closure has captured it. -/
  | record (a : Ref)
  /-- What calls of a closure start with: the record that it has captured, or else the default
  record. -/
  | closure (r : Ref) (c : Closure) (d : Ref)

namespace Ward

variable {h h' : Heap} {w : Ward} {a : Ref} {S : Set Ref}

instance : Coe Ref Ward := ⟨plain⟩

/-- The array. -/
def ref : Ward → Ref
  | plain a | record a => a
  | closure _ c d => c.captured.getD d

/-- What closures have to do with it. -/
def Ties (h : Heap) : Ward → Prop
  | plain _ => True
  | record a => h.Sealed ∧ ¬ h.Captures a
  | closure r c _ => h.value r = .closure c

/-- It does not depend on a closure that the array is there. -/
def Rooted : Ward → Prop
  | closure _ _ _ => False
  | _ => True

/-- What closures capture matters. -/
def Private : Ward → Prop
  | record _ => True
  | _ => False

theorem Ties.isSealed (ht : w.Ties h) (hw : w.Private) : h.Sealed := by
  cases w with
  | record a => exact ht.1
  | _ => exact hw.elim

/-- New closures do not matter, if they capture other arrays. -/
theorem Ties.mints (ht : w.Ties h) (mi : Mints S h h')
    (new : w.Private → ∀ a ∈ S, h'.IsRecord a ∧ a ≠ w.ref) : w.Ties h' := by
  cases w with
  | plain a => trivial
  | record a =>
    have new := new trivial
    refine ⟨mi.isSealed ht.1 fun a' ha' => (new a' ha').1, fun hc => ?_⟩
    exact (mi.captures hc).elim ht.2 fun ha => (new a ha).2 rfl
  | closure r c d => exact mi.closure ht

/-- A collection does not change what closures have to do with it, if it leaves the closure. -/
theorem Ties.collect (ht : w.Ties h) (wf : h.WellFormed) {roots : List Ref}
    (stays : ∀ r c d, w = .closure r c d → (h.collect roots).2.isValid r = true) :
    w.Ties (h.collect roots).2 := by
  cases w with
  | plain a => trivial
  | record a =>
    exact ⟨Heap.sealed_collect wf ht.1 roots,
      fun hc => ht.2 (Heap.captures_of_collect wf.layout hc)⟩
  | closure r c d => exact (Heap.value_collect wf.layout (stays r c d rfl)).trans ht

end Ward

namespace Machine

open Heap (Arbitrary Unaltered Spares Resembles reliance_arbitrary)

variable {F α β : Type} {m m' m'' : Machine F} {w : Ward} {R : α → Prop} {S : β → Prop}

/-! ### The array -/

/-- The array is there, and neither the globals nor the listeners. -/
structure Apart (w : Ward) (m : Machine F) : Prop where
  /-- It is there, as an array. -/
  isRecord : m.heap.IsRecord w.ref
  /-- The globals are another table, -/
  globals : m.globals ≠ w.ref
  /-- and so are the listeners. -/
  listeners : m.listeners ≠ w.ref
  /-- These are there as well. -/
  tables : ∀ t, t = m.globals ∨ t = m.listeners → m.heap.isValid t = true
  /-- Closures have to do with it what they should, -/
  ties : w.Ties m.heap
  /-- and nothing with these. -/
  uncaptured : w.Private → ∀ t, t = m.globals ∨ t = m.listeners → ¬ m.heap.Captures t

theorem Apart.isTable (ha : Apart w m) : m.heap.IsTable w.ref := ha.isRecord.isTable

theorem Apart.isValid (ha : Apart w m) : m.heap.isValid w.ref = true := ha.isRecord.1

/-- Collections start from the array, unless it is left to a closure: it is the default record, it
holds the locals, or it is among the lowest `depth` entries of the stack. -/
def HoldsOn (depth : Nat) (m : Machine F) : Ward → Prop
  | .plain a => m.defaultRecord = a
  | .record a => a = m.defaultRecord ∨ a = m.locals ∨ HeldBelow depth m a
  | .closure _ _ d => m.defaultRecord = d

/-- The array is apart, and the machine holds on to it. -/
structure Safe (w : Ward) (m : Machine F) : Prop extends Apart w m where
  /-- Collections start from it. -/
  held : HoldsOn m.stack.base m w

/-- The objects that a machine has from the start are the same. -/
structure SameCore (m m' : Machine F) : Prop where
  /-- Nil, -/
  nil : m'.nil = m.nil
  /-- the default record, -/
  record : m'.defaultRecord = m.defaultRecord
  /-- the globals -/
  globals : m'.globals = m.globals
  /-- and the listeners. -/
  listeners : m'.listeners = m.listeners

theorem SameCore.refl (m : Machine F) : SameCore m m := ⟨rfl, rfl, rfl, rfl⟩

theorem SameCore.trans (same : SameCore m m') (same' : SameCore m' m'') : SameCore m m'' :=
  ⟨same'.nil.trans same.nil, same'.record.trans same.record, same'.globals.trans same.globals,
    same'.listeners.trans same.listeners⟩

/-- The array is apart in `m'`, and holds what it held in `m`. -/
structure Spared (w : Ward) (m m' : Machine F) : Prop where
  /-- It is apart. -/
  apart : Apart w m'
  /-- It holds the same. -/
  elements : m'.heap.arrayElements w.ref = m.heap.arrayElements w.ref
  /-- The objects of the machine are the same. -/
  core : SameCore m m'

theorem Spared.refl (ha : Apart w m) : Spared w m m := ⟨ha, rfl, .refl m⟩

theorem Spared.trans (sp : Spared w m m') (sp' : Spared w m' m'') : Spared w m m'' :=
  ⟨sp'.apart, sp'.elements.trans sp.elements, sp.core.trans sp'.core⟩

/-- The array is apart in `m'`, and holds what it held in `m`, unless it held the locals. -/
structure Minded (w : Ward) (m m' : Machine F) : Prop where
  /-- It is apart. -/
  apart : Apart w m'
  /-- It holds the same. -/
  elements : m.locals ≠ w.ref → m'.heap.arrayElements w.ref = m.heap.arrayElements w.ref
  /-- The objects of the machine are the same. -/
  core : SameCore m m'

theorem Spared.minded (sp : Spared w m m') : Minded w m m' :=
  ⟨sp.apart, fun _ => sp.elements, sp.core⟩

theorem Minded.spared (mi : Minded w m m') (hl : m.locals ≠ w.ref) : Spared w m m' :=
  ⟨mi.apart, mi.elements hl, mi.core⟩

/-- What was spared before is minded from the start. -/
theorem Spared.trans_minded (sp : Spared w m m') (hl : m'.locals = m.locals)
    (mi : Minded w m' m'') : Minded w m m'' :=
  ⟨mi.apart, fun ne => (mi.elements (hl ▸ ne)).trans sp.elements, sp.core.trans mi.core⟩

/-- With the heap `h` in place of that of `m`, the array is as it was, closures have to do with it
what they had, and the tables of the machine are there. -/
structure Leaves (w : Ward) (m : Machine F) (h : Heap) : Prop where
  /-- The array is as it was. -/
  unaltered : m.heap.Unaltered h w.ref
  /-- Closures have to do with it what they had. -/
  ties : w.Ties m.heap → w.Ties h
  /-- The tables are there, -/
  tables : ∀ t, t = m.globals ∨ t = m.listeners → m.heap.isValid t = true → h.isValid t = true
  /-- and no closure has captured them. -/
  captures : w.Private → ∀ t, t = m.globals ∨ t = m.listeners → h.Captures t → m.heap.Captures t

theorem Leaves.refl (hv : m.heap.isValid w.ref = true) : Leaves w m m.heap :=
  ⟨.refl hv, id, fun _ _ => id, fun _ _ _ => id⟩

theorem Leaves.of_mints {h : Heap} (u : m.heap.Unaltered h w.ref) (mi : Mints ∅ m.heap h) :
    Leaves w m h :=
  ⟨u, fun ht => ht.mints mi fun _ a ha => absurd ha (Set.notMem_empty a), fun _ _ => mi.isValid,
    fun _ t _ hc => (mi.captures hc).elim id fun ht => absurd ht (Set.notMem_empty t)⟩

theorem Apart.spared (ha : Apart w m) (same : SameCore m m') (lv : Leaves w m m'.heap) :
    Spared w m m' where
  apart := by
    refine ⟨⟨lv.unaltered.isValid, (lv.unaltered.isArray ha.isTable).trans ha.isRecord.2⟩,
      same.globals ▸ ha.globals, same.listeners ▸ ha.listeners, ?_, lv.ties ha.ties, ?_⟩ <;>
      rw [same.globals, same.listeners]
    · exact fun t ht => lv.tables t ht (ha.tables t ht)
    · exact fun hw t ht hc => ha.uncaptured hw t ht (lv.captures hw t ht hc)
  elements := lv.unaltered.arrayElements
  core := same

theorem Apart.spared_of_heap (ha : Apart w m) (same : SameCore m m') (heap : m'.heap = m.heap) :
    Spared w m m' :=
  ha.spared same (heap.symm ▸ .refl ha.isValid)

/-- A change of the heap that leaves the array alone. -/
theorem Apart.spared_heap (ha : Apart w m) {h : Heap} (lv : Leaves w m h) :
    Spared w m { m with heap := h } := ha.spared ⟨rfl, rfl, rfl, rfl⟩ lv

/-- A machine holds on to what another one does whose stack and locals it has on its stack. -/
theorem HoldsOn.imp {d d' : Nat} (held : HoldsOn d m w) (same : SameCore m m')
    (stack : ∀ a, a = m.locals ∨ HeldBelow d m a → a = m'.locals ∨ HeldBelow d' m' a) :
    HoldsOn d' m' w := by
  cases w with
  | plain a => exact same.record.trans held
  | record a =>
    rw [HoldsOn, same.record]
    exact held.imp_right (stack a)
  | closure r c d => exact same.record.trans held

theorem HoldsOn.mono {d d' : Nat} (held : HoldsOn d m w) (hd : d ≤ d') : HoldsOn d' m w :=
  held.imp (.refl m) fun _ ha => ha.imp_right fun h => h.mono hd

theorem Safe.within (hs : Safe w m) (wi : Within m m') (sp : Spared w m m') : Safe w m' := by
  refine ⟨sp.apart, hs.held.imp sp.core fun a ha => ?_⟩
  rw [wi.locals, wi.base]
  exact ha.imp_right wi.toAgrees.heldBelow

/-! ### Actions that leave it alone -/

/-- From whatever standard machine the action starts, it is confined to the call and leaves the
array alone, and `R` holds of what it answers. -/
def Shelters (w : Ward) (x : Action F α) (R : α → Prop := fun _ => True) : Prop :=
  ∀ m, m.Standard → Safe w m → Ends x m (fun a m' => (Within m m' ∧ Spared w m m') ∧ R a)
    fun _ m' => Within m m' ∧ Spared w m m'

theorem Confined.shelters {x : Action F α} (hx : Confined x)
    (hs : ∀ m, m.Standard → Safe w m → Ends x m (fun a m' => Spared w m m' ∧ R a)
      fun _ m' => Spared w m m') : Shelters w x R := by
  intro m hm ha
  exact ((hx m hm).and (hs m hm ha)).imp (fun _ _ h => ⟨⟨h.1, h.2.1⟩, h.2.2⟩) fun _ _ => id

theorem Shelters.confined {x : Action F α} (hx : Shelters w x R) (hm : m.Standard)
    (hs : Safe w m) : Ends x m (fun _ m' => Within m m' ∧ Spared w m m')
      fun _ m' => Within m m' ∧ Spared w m m' :=
  (hx m hm hs).imp (fun _ _ h => h.1) fun _ _ => id

theorem shelters_pure {a : α} (ha : R a) : Shelters w (pure a : Action F α) R :=
  fun _ hm hs => ends_pure ⟨⟨.refl hm, .refl hs.toApart⟩, ha⟩

theorem shelters_throw (e : Halt) : Shelters w (throw e : Action F α) R :=
  fun _ hm hs => ends_throw ⟨.refl hm, .refl hs.toApart⟩

theorem shelters_fail (e : Fault) : Shelters w (fail e : Action F α) R := shelters_throw _

theorem Shelters.bind {x : Action F α} {f : α → Action F β} (hx : Shelters w x R)
    (hf : ∀ a, R a → Shelters w (f a) S) : Shelters w (x >>= f) S := by
  intro m hm hs
  refine ends_bind (hx m hm hs) fun a m₁ h => ?_
  obtain ⟨⟨wi, sp⟩, ha⟩ := h
  exact (hf a ha m₁ wi.standard (hs.within wi sp)).imp
    (fun _ _ h => ⟨⟨wi.trans h.1.1, sp.trans h.1.2⟩, h.2⟩)
    fun _ _ h => ⟨wi.trans h.1, sp.trans h.2⟩

theorem Shelters.weaken {x : Action F α} (hx : Shelters w x R) : Shelters w x :=
  fun m hm hs => (hx m hm hs).imp (fun _ _ h => ⟨h.1, trivial⟩) fun _ _ => id

/-- What is read of the machine may be used with what is known of it. -/
theorem shelters_get_bind {f : Machine F → Action F β} (hf : ∀ m, Apart w m → Shelters w (f m) S) :
    Shelters w (get >>= f) S := fun m hm hs => ends_get_bind (hf m hs.toApart m hm hs)

theorem Shelters.attempt {x : Action F α} (hx : Shelters w x R) : Shelters w (attempt x) := by
  intro m hm hs
  refine (ends_attempt (hx m hm hs)).imp ?_ ?_
  · rintro _ m' (⟨_, _, h⟩ | ⟨_, _, h⟩)
    · exact ⟨h.1, trivial⟩
    · exact ⟨h, trivial⟩
  · rintro _ m' ⟨_, h⟩
    exact h

/-- What is known at the end of an action that started in `m` is known at the end of one that came
to `m`. -/
theorem Shelters.ends_from {x : Action F α} (hx : Shelters w x R) {m₀ : Machine F}
    (hs : Safe w m) (wi : Within m₀ m) (sp : Spared w m₀ m) :
    Ends x m (fun _ m' => Within m₀ m' ∧ Spared w m₀ m')
      fun _ m' => Within m₀ m' ∧ Spared w m₀ m' :=
  (hx.confined wi.standard hs).imp (fun _ _ h => ⟨wi.trans h.1, sp.trans h.2⟩)
    fun _ _ h => ⟨wi.trans h.1, sp.trans h.2⟩

/-! ### Registers -/

/-- Registers other than those of the core do not matter. -/
theorem shelters_modify {f : Machine F → Machine F} (hf : ∀ m, f m = { m with
    pc := (f m).pc, state := (f m).state, error := (f m).error, inbox := (f m).inbox
    outbox := (f m).outbox, sensors := (f m).sensors, stigmergy := (f m).stigmergy
    membership := (f m).membership, pinned := (f m).pinned, receiver := (f m).receiver
    reports := (f m).reports, log := (f m).log, strayed := (f m).strayed }) :
    Shelters w (modify f : Action F Unit) := by
  refine (confined_modify hf).shelters fun m _ hs =>
    ends_modify ⟨hs.toApart.spared_of_heap ?_ ?_, trivial⟩
  · rw [hf m]
    exact ⟨rfl, rfl, rfl, rfl⟩
  · rw [hf m]

theorem shelters_orFail (o : Option α) (e : Fault) : Shelters w (orFail o e : Action F α) := by
  cases o with
  | some a => exact shelters_pure trivial
  | none => exact shelters_fail e

theorem shelters_require (c : Bool) (e : Fault) :
    Shelters w (require c e : Action F Unit) fun _ => c = true := by
  cases c with
  | true => exact shelters_pure rfl
  | false => exact shelters_fail e

theorem shelters_emit (e : Event) : Shelters w (emit e : Action F Unit) :=
  shelters_modify fun _ => rfl

theorem shelters_stray : Shelters w (stray : Action F Unit) := shelters_modify fun _ => rfl

theorem shelters_touch (t : Ref) : Shelters w (touch t : Action F Unit) :=
  (upholds_touch t).confined.shelters fun _ _ hs =>
    ends_modify ⟨hs.toApart.spared_of_heap ⟨rfl, rfl, rfl, rfl⟩ rfl, trivial⟩

theorem shelters_push (r : Ref) : Shelters w (push r : Action F Unit) := by
  refine (upholds_push r).confined.shelters fun m _ hs => ?_
  rw [ends_iff, push]
  cases m.stack.push r with
  | ok stack => exact ⟨hs.toApart.spared_of_heap ⟨rfl, rfl, rfl, rfl⟩ rfl, trivial⟩
  | error e => exact .refl hs.toApart

theorem shelters_pop : Shelters w (pop : Action F Ref) := by
  refine upholds_pop.confined.shelters fun m _ hs => ?_
  rw [ends_iff, pop]
  cases m.stack.pop with
  | ok p => exact ⟨hs.toApart.spared_of_heap ⟨rfl, rfl, rfl, rfl⟩ rfl, trivial⟩
  | error e => exact .refl hs.toApart

theorem shelters_peek (n : Nat) : Shelters w (peek n : Action F Ref) := by
  refine (upholds_peek n).confined.shelters fun m _ hs => ?_
  rw [ends_iff, peek]
  cases m.stack.peek n with
  | ok r => exact ⟨.refl hs.toApart, trivial⟩
  | error e => exact .refl hs.toApart

theorem shelters_setPeek (n : Nat) (r : Ref) : Shelters w (setPeek n r : Action F Unit) := by
  refine (upholds_setPeek n r).confined.shelters fun m _ hs => ?_
  rw [ends_iff, setPeek]
  cases m.stack.setPeek n r with
  | ok stack => exact ⟨hs.toApart.spared_of_heap ⟨rfl, rfl, rfl, rfl⟩ rfl, trivial⟩
  | error e => exact .refl hs.toApart

/-! ### Objects -/

/-- An operation on the heap that leaves the array alone. -/
theorem Apart.ends_onHeap (ha : Apart w m) {x : HeapM α} {P : α → Heap → Prop}
    (hx : Ends x m.heap (fun a h => Leaves w m h ∧ P a h) fun _ h => Leaves w m h) :
    Ends (onHeap x) m (fun a m' => Spared w m m' ∧ P a m'.heap) fun _ m' => Spared w m m' := by
  refine (Machine.ends_onHeap hx).imp ?_ ?_
  · rintro a _ ⟨h, ⟨lv, hp⟩, rfl⟩
    exact ⟨ha.spared ⟨rfl, rfl, rfl, rfl⟩ lv, hp⟩
  · rintro _ _ ⟨_, h, lv, rfl⟩
    exact ha.spared ⟨rfl, rfl, rfl, rfl⟩ lv

/-- What is new is another object. -/
theorem ne_of_free {h : Heap} {a r : Ref} (hv : h.isValid a = true) (free : h.isValid r = false) :
    r ≠ a := by
  rintro rfl
  rw [hv] at free
  cases free

/-- An operation that makes an object. -/
theorem Apart.ends_onHeap_new (ha : Apart w m) {x : HeapM Ref} {P Q : Ref → Heap → Prop}
    {E : OutOfMemory → Heap → Prop}
    (hx : Ends x m.heap (fun _ h => Spares ∅ m.heap h) fun _ h => Spares ∅ m.heap h)
    (mi : Ends x m.heap (fun r h => Mints ∅ m.heap h ∧ P r h) fun _ h => Mints ∅ m.heap h)
    (hn : Ends x m.heap Q E) (free : ∀ {r h}, Q r h → m.heap.isValid r = false) :
    Ends (onHeap x) m (fun r m' => Spared w m m' ∧ m.heap.isValid r = false ∧ P r m'.heap)
      fun _ m' => Spared w m m' := by
  have leaves : ∀ {h}, Spares ∅ m.heap h → Mints ∅ m.heap h → Leaves w m h :=
    fun sp mi => .of_mints (sp.unaltered ha.isValid) mi
  refine ha.ends_onHeap (P := fun r h => m.heap.isValid r = false ∧ P r h)
    (((hx.and mi).and hn).imp (fun _ _ h => ?_) fun _ _ h => ?_)
  · exact ⟨leaves h.1.1 h.1.2.1, free h.2, h.1.2.2⟩
  · exact leaves h.1.1 h.1.2

theorem ends_touch_bind (hm : m.Standard) {t : Ref} {f : Unit → Action F α}
    {Q : α → Machine F → Prop} {E : Halt → Machine F → Prop} (hf : Ends (f ()) m Q E) :
    Ends (touch t >>= f) m Q E := by
  refine ends_bind (Q := fun _ m' => m' = m) ?_ fun _ m' he => he ▸ hf
  rw [ends_iff, touch_eq hm.wellFormed (reliance_arbitrary.table hm.tidy)]

/-- A closure may be made that captures `a`: an array, which is neither the one that is looked after
nor a table of the machine. -/
def Permits (w : Ward) (m : Machine F) (a : Ref) : Prop :=
  w.Private → (m.heap.IsRecord a ∧ a ≠ w.ref) ∧ ∀ t, t = m.globals ∨ t = m.listeners → a ≠ t

/-- A new object may capture what is permitted. -/
theorem Safe.ends_allocValue (hm : m.Standard) (hs : Safe w m) {v : Value}
    (ht : ∀ t, v ≠ .table t) (hv : ∀ a, v.captured? = some a → Permits w m a) :
    Ends (onHeap (Heap.allocValue v)) m (fun _ m' => Within m m' ∧ Spared w m m')
      fun _ m' => Within m m' ∧ Spared w m m' := by
  have confined : Confined (onHeap (Heap.allocValue v) : Action F Ref) :=
    confined_of_yields fun hm => yields_allocValue reliance_arbitrary hm ht fun _ _ _ _ => hm.nil
  have mints := Heap.mints_allocValue (S := {a | Permits w m a}) hm.wellFormed hv
  refine ((confined m hm).and (hs.toApart.ends_onHeap (P := fun _ _ => True)
    (((Heap.spares_allocValue hm.wellFormed v).and mints).imp (fun _ h sp => ?_)
      fun _ h he => ?_))).imp (fun _ _ h => ⟨h.1, h.2.1⟩) fun _ _ => id
  · refine ⟨⟨sp.1.unaltered hs.isValid, fun ties => ties.mints sp.2 fun hw a ha => ?_,
      fun _ _ => sp.2.isValid, fun hw t ht hc => ?_⟩, trivial⟩
    · exact ⟨sp.2.record (ha hw).1.1, (ha hw).1.2⟩
    · exact (sp.2.captures hc).elim id fun ha => absurd rfl ((ha hw).2 t ht)
  · rw [he.1]
    exact .refl hs.isValid

theorem Safe.ends_alloc (hm : m.Standard) (hs : Safe w m) {v : Value}
    (hv : ∀ a, v.captured? = some a → Permits w m a) :
    Ends (alloc v) m (fun _ m' => Within m m' ∧ Spared w m m')
      fun _ m' => Within m m' ∧ Spared w m m' := by
  cases v with
  | nil => exact ends_get_bind (ends_pure ⟨.refl hm, .refl hs.toApart⟩)
  | table t => exact ends_throw ⟨.refl hm, .refl hs.toApart⟩
  | _ => exact hs.ends_allocValue hm (by simp) hv

theorem shelters_allocValue {v : Value} (ht : ∀ t, v ≠ .table t) (hv : v.captured? = none) :
    Shelters w (onHeap (Heap.allocValue v) : Action F Ref) := by
  intro m hm hs
  refine (hs.ends_allocValue hm ht fun a ha => ?_).imp (fun _ _ h => ⟨h, trivial⟩) fun _ _ => id
  rw [hv] at ha
  cases ha

theorem shelters_alloc (v : Value) (hv : v.captured? = none) :
    Shelters w (alloc v : Action F Ref) := by
  intro m hm hs
  refine (hs.ends_alloc hm fun a ha => ?_).imp (fun _ _ h => ⟨h, trivial⟩) fun _ _ => id
  rw [hv] at ha
  cases ha

/-- What is captured does not matter to the default record. -/
theorem shelters_alloc_plain {d : Ref} (v : Value) : Shelters d (alloc v : Action F Ref) := by
  intro m hm hs
  exact (hs.ends_alloc hm fun _ _ hw => hw.elim).imp (fun _ _ h => ⟨h, trivial⟩) fun _ _ => id

theorem shelters_tableNew : Shelters w (onHeap Heap.tableNew : Action F Ref) (· ≠ w.ref) :=
  upholds_tableNew.confined.shelters fun _ hm hs =>
    (hs.toApart.ends_onHeap_new (P := fun _ _ => True) (Heap.spares_allocTable hm.wellFormed)
      ((Heap.mints_allocTable hm.wellFormed).imp (fun _ _ mi => ⟨mi, trivial⟩) fun _ _ => id)
      (Heap.newObject_allocTable (A := Set.univ) hm.wellFormed) fun n => n.1.free).imp
      (fun _ _ h => ⟨h.1, ne_of_free hs.isValid h.2.1⟩) fun _ _ => id

/-- `m'` comes from `m` inside the call with the array spared, and `a` is a new array. -/
structure MakesRecord (w : Ward) (m : Machine F) (a : Ref) (m' : Machine F) : Prop where
  /-- It is the same call. -/
  within : Within m m'
  /-- The array is spared. -/
  spared : Spared w m m'
  /-- The new one is new, -/
  free : m.heap.isValid a = false
  /-- and an array. -/
  isRecord : m'.heap.IsRecord a

/-- Further work does not unmake it. -/
theorem MakesRecord.trans {a : Ref} (mk : MakesRecord w m a m') (wi : Within m' m'')
    (sp : Spared w m' m'') (mi : Mints ∅ m'.heap m''.heap) : MakesRecord w m a m'' :=
  ⟨mk.within.trans wi, mk.spared.trans sp, mk.free, mi.record mk.isRecord⟩

theorem MakesRecord.ne {a : Ref} (mk : MakesRecord w m a m') (ha : Apart w m) : a ≠ w.ref :=
  ne_of_free ha.isValid mk.free

theorem Safe.ends_arrayNew (hm : m.Standard) (hs : Safe w m) : Ends (onHeap Heap.arrayNew) m
    (fun r m' => MakesRecord w m r m') fun _ m' => Within m m' ∧ Spared w m m' := by
  have confined : Confined (onHeap Heap.arrayNew : Action F Ref) :=
    confined_of_yields fun hm => yields_arrayNew reliance_arbitrary hm
  exact ((confined m hm).and (hs.toApart.ends_onHeap_new (Heap.spares_arrayNew hm.wellFormed)
    (Heap.mints_arrayNew hm.wellFormed) (Heap.newObject_arrayNew (A := Set.univ) hm.wellFormed)
    fun n => n.1.free)).imp (fun _ _ h => ⟨h.1, h.2.1, h.2.2.1, h.2.2.2⟩) fun _ _ => id

theorem Safe.ends_arrayClone (hm : m.Standard) (hs : Safe w m) (a : Ref) : Ends (arrayClone a) m
    (fun r m' => MakesRecord w m r m') fun _ m' => Within m m' ∧ Spared w m m' := by
  have confined : Confined (arrayClone a : Action F Ref) :=
    confined_of_yields fun hm => yields_arrayClone reliance_arbitrary hm hm.nil
  exact ((confined m hm).and (ends_touch_bind hm (hs.toApart.ends_onHeap_new
    (Heap.spares_arrayClone hm.wellFormed a) (Heap.mints_arrayClone hm.wellFormed a)
    (Heap.newObject_arrayClone (A := Set.univ) hm.wellFormed fun _ _ => Set.mem_univ _)
    fun n => n.1.free))).imp (fun _ _ h => ⟨h.1, h.2.1, h.2.2.1, h.2.2.2⟩) fun _ _ => id

theorem shelters_arrayClone (a : Ref) : Shelters w (arrayClone a : Action F Ref) (· ≠ w.ref) :=
  fun _ hm hs => (hs.ends_arrayClone hm a).imp
    (fun _ _ mk => ⟨⟨mk.within, mk.spared⟩, mk.ne hs.toApart⟩) fun _ _ => id

theorem shelters_tableGet (t key : Ref) : Shelters w (tableGet t key : Action F Ref) :=
  (shelters_touch t).bind fun _ _ => shelters_get_bind fun _ _ => shelters_pure trivial

/-- Writes to another table or array. -/
theorem Apart.ends_onHeap_write (ha : Apart w m) {t : Ref} (ht : t ≠ w.ref) {x : HeapM Unit}
    (hx : Ends x m.heap (fun _ h => Spares {t} m.heap h) fun _ h => h = m.heap)
    (al : Ends x m.heap (fun _ h => Resembles m.heap h) fun _ h => h = m.heap) :
    Ends (onHeap x) m (fun _ m' => Spared w m m' ∧ Resembles m.heap m'.heap)
      fun _ m' => Spared w m m' := by
  refine ha.ends_onHeap (P := fun _ h => Resembles m.heap h) ((hx.and al).imp (fun _ _ h => ?_)
    fun _ _ h => ?_)
  · exact ⟨.of_mints (h.1.unaltered_of_ne ht.symm ha.isValid) h.2.mints, h.2⟩
  · rw [h.1]
    exact .refl ha.isValid

theorem shelters_tableSet {t : Ref} (ht : t ≠ w.ref) (key r : Ref) :
    Shelters w (tableSet t key r : Action F Unit) :=
  (upholds_tableSet t key r).confined.shelters fun _ hm hs => ends_touch_bind hm
    ((hs.toApart.ends_onHeap_write ht
      (Heap.spares_tableSet hm.wellFormed (reliance_arbitrary.table hm.tidy) key r)
      (Heap.resembles_tableSet hm.wellFormed (reliance_arbitrary.table hm.tidy) key r)).imp
      (fun _ _ h => ⟨h.1, trivial⟩) fun _ _ => id)

/-- An element is appended to an array. -/
theorem Safe.ends_arrayPush (hm : m.Standard) (hs : Safe w m) {a : Ref} (ha : a ≠ w.ref) (r : Ref) :
    Ends (arrayPush a r) m (fun _ m' => (Within m m' ∧ Spared w m m') ∧ Resembles m.heap m'.heap)
      fun _ m' => Within m m' ∧ Spared w m m' := by
  have confined : Confined (arrayPush a r : Action F Unit) :=
    confined_of_yields fun hm => yields_arrayPush reliance_arbitrary hm hm.nil hm.nil
  have table := reliance_arbitrary.table (r := a) hm.tidy
  have same := Heap.sameObjects_arrayPush hm.wellFormed table r
  exact ((confined m hm).and (ends_touch_bind hm (hs.toApart.ends_onHeap_write ha
    (Heap.spares_arrayPush hm.wellFormed table r)
    (same.imp (fun _ _ o => o.resembles) fun _ _ => id)))).imp (fun _ _ h => ⟨⟨h.1, h.2.1⟩, h.2.2⟩)
    fun _ _ => id

/-- An element of an array is replaced, if it is there. -/
theorem Safe.ends_arraySet (hm : m.Standard) (hs : Safe w m) {a : Ref} (ha : a ≠ w.ref) (i : Nat)
    (r : Ref) : Ends (changeHeap fun h => h.arraySet a i r) m
      (fun _ m' => (Within m m' ∧ Spared w m m') ∧ Resembles m.heap m'.heap)
      fun _ m' => Within m m' ∧ Spared w m m' := by
  have confined : Confined (changeHeap fun h => h.arraySet a i r : Action F Bool) := by
    refine confined_of_yields (R := fun _ _ _ => True) fun hm =>
      (yields_changeHeap reliance_arbitrary hm ?_).imp fun _ _ _ _ => trivial
    exact evolves_arraySet reliance_arbitrary hm hm.nil hm.nil
  have table := reliance_arbitrary.table (r := a) hm.tidy
  have al := (Heap.sameObjects_arraySet hm.wellFormed table i r).resembles
  have lv : Leaves w m (m.heap.arraySet a i r).2 := .of_mints
    ((Heap.spares_arraySet hm.wellFormed table i r).unaltered_of_ne ha.symm hs.isValid) al.mints
  have set : Ends (changeHeap fun h => h.arraySet a i r) m
      (fun _ m' => m' = { m with heap := (m.heap.arraySet a i r).2 }) fun _ _ => False :=
    ends_changeHeap.imp (fun _ _ h => h.2) fun _ _ => id
  -- from here on the new heap is any heap with these properties
  generalize (m.heap.arraySet a i r).2 = heap at al lv set
  refine ((confined m hm).and set).imp (fun _ m' h => ?_) fun _ _ h => h.2.elim
  obtain ⟨wi, rfl⟩ := h
  exact ⟨⟨wi, hs.toApart.spared_heap lv⟩, al⟩

theorem shelters_setPermanent (r : Ref) (permanent : Bool) :
    Shelters w (modifyHeap (·.setPermanent r permanent) : Action F Unit) :=
  (confined_setPermanent r permanent).shelters fun _ hm hs => ends_iff.2
    ⟨hs.toApart.spared ⟨rfl, rfl, rfl, rfl⟩ (.of_mints
      ((Heap.spares_setPermanent hm.wellFormed r permanent).unaltered hs.isValid)
      (Heap.mints_setPermanent hm.wellFormed r permanent)), trivial⟩

/-- Arrays are not accepted as tables. -/
theorem shelters_expectTable (t : Ref) :
    Shelters w (expectTable t : Action F Unit) fun _ => t ≠ w.ref := by
  refine shelters_get_bind fun m ha => ?_
  intro m' hm' hs'
  refine (shelters_require _ _ m' hm' hs').imp (fun _ _ h => ⟨h.1, ?_⟩) fun _ _ => id
  rintro rfl
  have := h.2
  rw [ha.isRecord.2, Bool.not_true, Bool.and_false] at this
  cases this

/-! ### Fields and methods -/

theorem shelters_field (t : Ref) (name : NameId) : Shelters w (field t name : Action F Ref) :=
  (shelters_alloc _ (by rfl)).bind fun _ _ => shelters_tableGet _ _

theorem shelters_setField {t : Ref} (ht : t ≠ w.ref) (name : NameId) (r : Ref) :
    Shelters w (setField t name r : Action F Unit) :=
  (shelters_alloc _ (by rfl)).bind fun _ _ => shelters_tableSet ht _ _

/-- The copy of a record is new, and what is done to it does not concern other objects. -/
theorem Safe.ends_rebind (hm : m.Standard) (hs : Safe w m) (captured self : Ref) :
    Ends (rebind captured self) m (fun r m' => MakesRecord w m r m')
      fun _ m' => Within m m' ∧ Spared w m m' := by
  refine ends_bind (hs.ends_arrayClone hm captured) fun record m₁ mk => ?_
  have hm₁ := mk.within.standard
  have ne := mk.ne hs.toApart
  have wf := hm₁.wellFormed
  have ht := mk.isRecord.isTable
  refine ends_touch_bind hm₁ (ends_bind (Q := fun _ m' => m' = m₁) ?_ fun _ m' he => ?_)
  · rw [ends_iff, touchSlot_eq ht.1]
  subst he
  refine ends_bind ends_changeHeap fun _ m₂ h₂ => ?_
  obtain ⟨-, rfl⟩ := h₂
  have ev : Heap.Evolves ∅ {e | Arbitrary m'.heap e} m'.heap (m'.heap.setFlagB record false) :=
    Heap.evolves_setFlagB wf ht false
  have mi : Mints ∅ m'.heap (m'.heap.setFlagB record false) := Heap.mints_setFlagB wf ht false
  have wi₂ := (steady_of_heap reliance_arbitrary hm₁.reliable ev).within hm₁
  have hs₁ := hs.within mk.within mk.spared
  have sp₂ := hs₁.toApart.spared_heap (.of_mints ((Heap.spares_setHeader wf ht.1
    _).unaltered_of_ne ne.symm hs₁.isValid) mi)
  have mk₂ := mk.trans wi₂ sp₂ mi
  have hs₂ := hs₁.within wi₂ sp₂
  refine ends_bind ((hs₂.ends_arraySet wi₂.standard ne 0 self).imp (fun _ _ => id)
    fun _ _ h => ⟨mk₂.within.trans h.1, mk₂.spared.trans h.2⟩) fun done m₃ h₃ => ?_
  obtain ⟨⟨wi₃, sp₃⟩, al₃⟩ := h₃
  have mk₃ := mk₂.trans wi₃ sp₃ al₃.mints
  cases done with
  | true => exact ends_pure mk₃
  | false =>
    refine ends_bind (((hs₂.within wi₃ sp₃).ends_arrayPush wi₃.standard ne self).imp
      (fun _ _ => id) fun _ _ h => ⟨mk₃.within.trans h.1, mk₃.spared.trans h.2⟩) fun _ m₄ h₄ => ?_
    exact ends_pure (mk₃.trans h₄.1.1 h₄.1.2 h₄.2.mints)

theorem Safe.ends_selfRecord (hm : m.Standard) (hs : Safe w m) (self : Ref) :
    Ends (selfRecord self) m (fun r m' => MakesRecord w m r m')
      fun _ m' => Within m m' ∧ Spared w m m' := by
  refine ends_bind (hs.ends_arrayNew hm) fun record m₁ mk => ?_
  have hs₁ := hs.within mk.within mk.spared
  refine ends_bind ((hs₁.ends_arrayPush mk.within.standard (mk.ne hs.toApart) self).imp
    (fun _ _ => id) fun _ _ h => ⟨mk.within.trans h.1, mk.spared.trans h.2⟩) fun _ m₂ h₂ => ?_
  exact ends_pure (mk.trans h₂.1.1 h₂.1.2 h₂.2.mints)

/-- A closure is made that captures a record which was made for it. -/
theorem MakesRecord.ends_alloc (hs : Safe w m) {a : Ref} (mk : MakesRecord w m a m') {c : Closure}
    (hc : c.captured = some a) : Ends (alloc (.closure c)) m'
      (fun _ m'' => Within m m'' ∧ Spared w m m'') fun _ m'' => Within m m'' ∧ Spared w m m'' := by
  refine ((hs.within mk.within mk.spared).ends_alloc mk.within.standard fun a' ha' => ?_).imp
    (fun _ _ h => ⟨mk.within.trans h.1, mk.spared.trans h.2⟩)
    fun _ _ h => ⟨mk.within.trans h.1, mk.spared.trans h.2⟩
  have : a = a' := Option.some.inj (hc.symm.trans ha')
  subst this
  refine fun _ => ⟨⟨mk.isRecord, mk.ne hs.toApart⟩, fun t ht => ?_⟩
  rw [mk.spared.core.globals, mk.spared.core.listeners] at ht
  exact ne_of_free (hs.tables t ht) mk.free

theorem shelters_bindClosure (t r : Ref) : Shelters w (bindClosure t r : Action F Ref) := by
  refine shelters_get_bind fun m _ => ?_
  split
  · exact shelters_pure trivial
  · next c _ =>
    intro m₀ hm hs
    have bound : ∀ {x : Action F Ref}, Ends x m₀ (fun r m' => MakesRecord w m₀ r m')
        (fun _ m' => Within m₀ m' ∧ Spared w m₀ m') →
        Ends (x >>= fun record => alloc (.closure { c with captured := some record })) m₀
          (fun _ m' => (Within m₀ m' ∧ Spared w m₀ m') ∧ True)
          fun _ m' => Within m₀ m' ∧ Spared w m₀ m' := fun hx =>
      ends_bind hx fun r _ mk => (mk.ends_alloc hs (c := { c with captured := some r }) rfl).imp
        (fun _ _ h => ⟨h, trivial⟩) fun _ _ => id
    cases c.captured with
    | some captured => exact bound (hs.ends_rebind hm captured t)
    | none => exact bound (hs.ends_selfRecord hm t)

theorem shelters_addMethods {t : Ref} (ht : t ≠ w.ref) :
    ∀ methods, Shelters w (addMethods t methods : Action F Unit)
  | [] => shelters_pure trivial
  | (_, _) :: rest => (shelters_alloc _ (by rfl)).bind fun _ _ =>
    (shelters_bindClosure _ _).bind fun _ _ =>
    (shelters_setField ht _ _).bind fun _ _ => shelters_addMethods ht rest

theorem shelters_methodTable (methods : List (Builtin × Primitive)) :
    Shelters w (methodTable methods : Action F Ref) (· ≠ w.ref) :=
  shelters_tableNew.bind fun _ ht => (shelters_addMethods ht methods).bind fun _ _ =>
    shelters_pure ht

/-! ### Arguments and results -/

theorem shelters_localAt (i : UInt16) : Shelters w (localAt i : Action F Ref) :=
  shelters_get_bind fun _ _ => (shelters_touch _).bind fun _ _ => shelters_get_bind fun _ _ =>
    shelters_orFail _ _

theorem shelters_requireArgs (n : Nat) : Shelters w (requireArgs n : Action F Unit) :=
  shelters_get_bind fun _ _ => (shelters_touch _).bind fun _ _ => shelters_get_bind fun _ _ =>
    (shelters_require _ _).weaken

/-- Any reading of an argument. -/
theorem shelters_argument {i : UInt16} {f : Value → Option α} {e : Fault} : Shelters w (do
    let r ← localAt i
    orFail (f ((← get).value r)) e : Action F α) :=
  (shelters_localAt i).bind fun _ _ => shelters_get_bind fun _ _ => shelters_orFail _ _

theorem shelters_closureArg (i : UInt16) : Shelters w (closureArg i : Action F Ref) :=
  (shelters_localAt i).bind fun _ _ => shelters_get_bind fun _ _ => (shelters_require _ _).bind
    fun _ _ => shelters_pure trivial

theorem shelters_popPair : Shelters w (popPair : Action F (Ref × Ref)) :=
  shelters_pop.bind fun _ _ => shelters_pop.bind fun _ _ => shelters_pure trivial

theorem shelters_pushValue (v : Value) (hv : v.captured? = none) :
    Shelters w (pushValue v : Action F Unit) :=
  (shelters_alloc v hv).bind fun _ _ => shelters_push _

theorem shelters_pushNil : Shelters w (pushNil : Action F Unit) :=
  shelters_get_bind fun _ _ => shelters_push _

theorem shelters_pushTable : Shelters w (pushTable : Action F Ref) :=
  shelters_tableNew.bind fun _ _ => (shelters_push _).bind fun _ _ => shelters_pure trivial

/-! ### Instructions -/

theorem shelters_jumpTo (address : UInt16) : Shelters w (jumpTo address : Action F Unit) :=
  shelters_get_bind fun _ _ => (shelters_require _ _).bind fun _ _ => shelters_modify fun _ => rfl

theorem shelters_jumpIf (when : Bool) (address : UInt16) :
    Shelters w (jumpIf when address : Action F Unit) := by
  refine shelters_pop.bind fun r _ => shelters_get_bind fun m _ => ?_
  split
  · exact shelters_jumpTo address
  · exact shelters_pure trivial

theorem shelters_number (r : Ref) : Shelters w (number r : Action F Number) :=
  shelters_get_bind fun _ _ => shelters_orFail _ _

theorem shelters_integer (r : Ref) : Shelters w (integer r : Action F Int16) :=
  shelters_get_bind fun _ _ => shelters_orFail _ _

theorem shelters_expectString (r : Ref) : Shelters w (expectString r : Action F Unit) :=
  shelters_get_bind fun _ _ => (shelters_orFail _ _).bind fun _ _ => shelters_pure trivial

theorem shelters_arithmetic (op : Arithmetic) : Shelters w (arithmetic op : Action F Unit) := by
  refine shelters_popPair.bind fun _ _ => (shelters_number _).bind fun x _ =>
    (shelters_number _).bind fun y _ => ?_
  cases hv : op.apply x y with
  | ok v => exact shelters_pushValue v (Value.captured?_eq_none (Arithmetic.apply_ne_closure hv))
  | error e => exact shelters_fail e

theorem shelters_bitwise (op : Bitwise) : Shelters w (bitwise op : Action F Unit) :=
  shelters_popPair.bind fun _ _ => (shelters_integer _).bind fun _ _ => (shelters_integer _).bind
    fun _ _ => shelters_pushValue _ (by rfl)

theorem shelters_loadGlobal : Shelters w (loadGlobal : Action F Unit) :=
  shelters_pop.bind fun _ _ => (shelters_expectString _).bind fun _ _ => shelters_get_bind
    fun _ _ => (shelters_tableGet _ _).bind fun _ _ => shelters_push _

theorem shelters_storeGlobal : Shelters w (storeGlobal : Action F Unit) :=
  shelters_popPair.bind fun _ _ => (shelters_expectString _).bind fun _ _ => shelters_get_bind
    fun _ hd => shelters_tableSet hd.globals _ _

theorem shelters_putField : Shelters w (putField : Action F Unit) :=
  shelters_pop.bind fun _ _ => shelters_popPair.bind fun _ _ => (shelters_expectTable _).bind
    fun _ ht => (shelters_bindClosure _ _).bind fun _ _ => shelters_tableSet ht _ _

theorem shelters_getField : Shelters w (getField : Action F Unit) :=
  shelters_popPair.bind fun _ _ => (shelters_expectTable _).bind fun _ _ =>
    (shelters_tableGet _ _).bind fun _ _ => shelters_push _

theorem shelters_pushLambda (address : UInt16) :
    Shelters w (pushLambda address : Action F Unit) := by
  intro m hm hs
  refine ends_get_bind (ends_bind (hs.ends_arrayClone hm m.locals) fun record m₁ mk => ?_)
  refine ends_bind (mk.ends_alloc hs rfl) fun r m₂ h₂ => ?_
  exact ((shelters_push r).ends_from (hs.within h₂.1 h₂.2) h₂.1 h₂.2).imp
    (fun _ _ h => ⟨h, trivial⟩) fun _ _ => id

/-- The locals are written to, and nothing else is. -/
theorem Apart.minded (ha : Apart w m) (same : SameCore m m') (mi : Mints ∅ m.heap m'.heap)
    (sp : Spares {m.locals} m.heap m'.heap) : Minded w m m' where
  apart := by
    refine ⟨mi.record ha.isRecord, same.globals ▸ ha.globals, same.listeners ▸ ha.listeners, ?_,
      ha.ties.mints mi fun _ a h => absurd h (Set.notMem_empty a), ?_⟩ <;>
      rw [same.globals, same.listeners]
    · exact fun t ht => mi.isValid (ha.tables t ht)
    · exact fun hw t ht => mi.not_captures (ha.uncaptured hw t ht)
  elements hl := (sp.unaltered_of_ne hl.symm ha.isValid).arrayElements
  core := same

/-- A local is stored in the locals. -/
theorem ends_storeLocal (hm : m.Standard) (hs : Safe w m) (i : UInt16) :
    Ends (storeLocal i) m (fun _ m' => Within m m' ∧ Minded w m m')
      fun _ m' => Within m m' ∧ Minded w m m' := by
  have confined : Confined (storeLocal i : Action F Unit) :=
    confined_of_yields fun hm => yields_storeLocal reliance_arbitrary hm
  refine (confined m hm).and (ends_bind ((shelters_pop.confined hm hs).imp (fun _ _ => id)
    fun _ _ h => h.2.minded) fun r m₁ h₁ => ends_get_bind ?_)
  obtain ⟨wi, sp⟩ := h₁
  have wf := wi.standard.wellFormed
  have table := reliance_arbitrary.table (r := m₁.locals) wi.standard.tidy
  have minded : ∀ {h'}, Mints ∅ m₁.heap h' → Spares {m₁.locals} m₁.heap h' →
      Minded w m { m₁ with heap := h' } :=
    fun mi hsp => sp.trans_minded wi.locals (sp.apart.minded ⟨rfl, rfl, rfl, rfl⟩ mi hsp)
  refine ends_touch_bind wi.standard (ends_get_bind ?_)
  dsimp only
  split
  · exact ends_iff.2 (minded (Heap.sameObjects_arraySet wf table i.toNat r).resembles.mints
      (Heap.spares_arraySet wf table i.toNat r))
  · split
    · refine ends_touch_bind wi.standard ((ends_onHeap ((Heap.sameObjects_arrayPush wf table r).and
        (Heap.spares_arrayPush wf table r))).imp ?_ ?_)
      · rintro _ _ ⟨h', ⟨o, hsp⟩, rfl⟩
        exact minded o.resembles.mints hsp
      · rintro _ _ ⟨_, h', ⟨rfl, -⟩, rfl⟩
        exact sp.minded
    · exact ends_throw sp.minded

/-- Every instruction that stays in the call leaves the array alone, unless it holds the locals. -/
theorem ends_perform (hm : m.Standard) (hs : Safe w m) {host : UInt16 → Action F Unit} {op : Opcode}
    (hop : op.switchesFrame = false) (operand : UInt16) :
    Ends (perform host op operand) m (fun _ m' => Within m m' ∧ Minded w m m')
      fun _ m' => Within m m' ∧ Minded w m m' := by
  have shelters : ∀ {x : Action F Unit}, Shelters w x → Ends x m
      (fun _ m' => Within m m' ∧ Minded w m m') fun _ m' => Within m m' ∧ Minded w m m' :=
    fun hx => (hx.confined hm hs).imp (fun _ _ h => ⟨h.1, h.2.minded⟩)
      fun _ _ h => ⟨h.1, h.2.minded⟩
  have logic : ∀ combine, Shelters w (logic combine : Action F Unit) := fun _ =>
    shelters_popPair.bind fun _ _ => shelters_get_bind fun _ _ => shelters_pushValue _ (by rfl)
  have comparison : ∀ test, Shelters w (comparison test : Action F Unit) := fun _ =>
    shelters_popPair.bind fun _ _ => shelters_get_bind fun _ _ => shelters_pushValue _ (by rfl)
  cases op with
  | call | ret0 | ret1 => cases hop
  | nop | done => exact shelters (shelters_pure trivial)
  | pushNil => exact shelters shelters_pushNil
  | dup => exact shelters ((shelters_peek 0).bind fun _ _ => shelters_push _)
  | pop => exact shelters (shelters_pop.bind fun _ _ => shelters_pure trivial)
  | add | sub | mul | div | mod | pow => exact shelters (shelters_arithmetic _)
  | unm =>
    exact shelters (shelters_pop.bind fun _ _ => (shelters_number _).bind fun x _ =>
      shelters_pushValue _ (by cases x <;> rfl))
  | logicAnd | logicOr => exact shelters (logic _)
  | logicNot =>
    exact shelters (shelters_pop.bind fun _ _ => shelters_get_bind fun _ _ =>
      shelters_pushValue _ (by rfl))
  | bitAnd | bitOr | shiftLeft | shiftRight => exact shelters (shelters_bitwise _)
  | bitNot =>
    exact shelters (shelters_pop.bind fun _ _ => (shelters_integer _).bind fun _ _ =>
      shelters_pushValue _ (by rfl))
  | eq | neq | gt | gte | lt | lte => exact shelters (comparison _)
  | loadGlobal => exact shelters shelters_loadGlobal
  | storeGlobal => exact shelters shelters_storeGlobal
  | pushTable => exact shelters (shelters_pushTable.bind fun _ _ => shelters_pure trivial)
  | putField => exact shelters shelters_putField
  | getField => exact shelters shelters_getField
  | pushFloat | pushInt | pushCode => exact shelters (shelters_pushValue _ (by rfl))
  | pushString | pushHost =>
    exact shelters (shelters_get_bind fun _ _ => (shelters_require _ _).bind fun _ _ =>
      shelters_pushValue _ (by rfl))
  | pushLambda => exact shelters (shelters_pushLambda _)
  | loadLocal => exact shelters ((shelters_localAt _).bind fun _ _ => shelters_push _)
  | storeLocal => exact ends_storeLocal hm hs operand
  | jump => exact shelters (shelters_jumpTo _)
  | jumpIfFalse | jumpIfTrue => exact shelters (shelters_jumpIf _ _)

/-- A collection that leaves the closure, if there is one, leaves the array. -/
theorem Safe.leaves_collect (hm : m.Standard) (hs : Safe w m)
    (stays : ∀ r c d, w = .closure r c d →
      (m.heap.collect (m.stack.slots.toList ++ m.ambient)).2.isValid r = true) :
    Leaves w m (m.heap.collect (m.stack.slots.toList ++ m.ambient)).2 := by
  have layout := hm.wellFormed.layout
  have root : ∀ {a}, a ∈ m.stack.slots.toList ++ m.ambient → m.heap.isValid a = true →
      (m.heap.collect (m.stack.slots.toList ++ m.ambient)).2.isValid a = true :=
    fun ha => (Heap.stays_collect layout ha).isValid
  have hv := hs.isValid
  refine ⟨Heap.unaltered_collect hm.wellFormed ?_, fun ht => ht.collect hm.wellFormed stays, ?_,
    fun _ _ _ => Heap.captures_of_collect layout⟩
  case refine_2 =>
    rintro t (rfl | rfl)
    · exact root (by simp [ambient])
    · exact root (by simp [ambient])
  cases w with
  | plain a => exact root (by simp [ambient, ← show m.defaultRecord = a from hs.held, Ward.ref]) hv
  | record a =>
    refine root ?_ hv
    rcases hs.held with rfl | rfl | ⟨i, -, hi⟩
    · simp [ambient, Ward.ref]
    · simp [ambient, Ward.ref]
    · exact List.mem_append_left _ (Array.mem_toList_iff.2 (Array.mem_of_getElem? hi))
  | closure r c d =>
    have hc : m.heap.value r = .closure c := hs.ties
    rw [Ward.ref] at hv ⊢
    cases hcap : c.captured with
    | none =>
      rw [hcap, Option.getD_none] at hv
      refine root ?_ hv
      simp [ambient, ← show m.defaultRecord = d from hs.held]
    | some a =>
      rw [hcap, Option.getD_some] at hv
      exact Heap.isValid_of_captured layout hv (by rw [hc]; exact hcap) (stays r c d rfl)

/-- A collection starts from what the machine holds on to. -/
theorem shelters_collectGarbage (hw : w.Rooted) :
    Shelters w (collectGarbage : Action F Unit) := by
  refine confined_collectGarbage.shelters fun m hm hs => ends_collectGarbage.imp ?_ ?_
  · rintro _ _ ⟨log, rfl⟩
    refine ⟨hs.toApart.spared ⟨rfl, rfl, rfl, rfl⟩ (hs.leaves_collect hm ?_), trivial⟩
    rintro r c d rfl
    exact hw.elim
  · rintro _ _ ⟨-, rfl⟩
    exact .refl hs.toApart

/-! ### Returns -/

/-- Inside any call, the action leaves the array alone and ends by returning to the caller. -/
def Concludes (w : Ward) (x : Action F Unit) : Prop := ∀ c m, Called c m → Safe w m →
  Ends x m (fun _ m' => Resumed c m m' ∧ Minded w m m') fun _ m' => Within m m' ∧ Spared w m m'

theorem Shelters.concludes {x : Action F α} {f : α → Action F Unit} (hx : Shelters w x R)
    (hf : ∀ a, R a → Concludes w (f a)) : Concludes w (x >>= f) := by
  intro c m hc hs
  have hdepth : c.depth ≤ m.stack.base := by
    rw [hc.base]
    omega
  refine ends_bind (hx m hc.standard hs) fun a m' h => ?_
  obtain ⟨⟨wi, sp⟩, ha⟩ := h
  exact (hf a ha c m' (hc.within wi) (hs.within wi sp)).imp
    (fun _ _ h => ⟨wi.resumed h.1 hdepth, sp.trans_minded wi.locals h.2⟩)
    fun _ _ h => ⟨wi.trans h.1, sp.trans h.2⟩

theorem concludes_get_bind {f : Machine F → Action F Unit}
    (hf : ∀ m, Apart w m → Concludes w (f m)) : Concludes w (get >>= f) :=
  fun c m hc hs => ends_get_bind (hf m hs.toApart c m hc hs)

/-- A return clears the locals. -/
theorem minded_returned (wf : m.heap.WellFormed) (ha : Apart w m) (hl : m.heap.IsTable m.locals)
    (depth : Nat) (locals : Ref) (base address : Int16) (result : Option Ref) :
    Minded w m (m.returned depth locals base address result) := by
  rw [returned]
  exact ha.minded ⟨rfl, rfl, rfl, rfl⟩ (Heap.mints_arrayClear wf hl)
    (Heap.spares_arrayClear wf hl.1)

theorem concludes_leaveFrame (result : Option Ref) :
    Concludes w (leaveFrame result : Action F Unit) := by
  intro c m hc hs
  obtain ⟨_, hb, hi⟩ := hc.saved.base
  obtain ⟨_, ha, hj⟩ := hc.saved.address
  refine (ends_leaveFrame hc.standard.wellFormed hc.frameDepth hc.base hc.standard.floor
    hc.standard.ceiling hc.locals.1 hb hi hc.saved.locals ha hj).imp (fun _ m' h => ?_)
    fun _ _ => id
  rw [h]
  exact ⟨resumed_returned hc result, minded_returned hc.standard.wellFormed hs.toApart hc.locals
    c.depth c.locals (Int16.ofNat c.base) c.pc.toInt16 result⟩

theorem concludes_ret0 : Concludes w (ret0 : Action F Unit) := concludes_leaveFrame none

theorem concludes_ret1 : Concludes w (ret1 : Action F Unit) :=
  concludes_get_bind fun _ _ => (shelters_require _ _).concludes fun _ _ =>
    shelters_pop.concludes fun r _ => concludes_leaveFrame (some r)

end Machine

end SwarmVm
