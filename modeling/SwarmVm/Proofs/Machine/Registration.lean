import SwarmVm.Proofs.Heap.Lookups
import SwarmVm.Proofs.Heap.Vacancies
import SwarmVm.Proofs.Machine.Fresh
import SwarmVm.Proofs.Machine.Methods

/-!
# Registering host functions

A host function that is registered gets a place on the list of functions, and then a closure that
leads there is bound to its name. The closure and the name are objects, so there may be no room for
them, or for a segment that the table of globals needs. A registration that fails for want of room
changes no global. But the function keeps its place, although nothing leads to it, and no later
registration can have it: registrations use up the places whether they succeed or not.

Whether there is a place is found out first. A registration that fails for want of one changes
nothing.

## Main definitions

* `Machine.bound?`, `Machine.hostOf?` — what a name is bound to, and the host function it leads to
* `Machine.Hosting` — a machine whose globals are a map
* `Machine.places` — how many functions can still be registered
* `Machine.bindHost` — what a registration does when there is a place
* `Machine.Registered` — what is left after some registrations

## Main results

* `Machine.hosting_make` — the globals of a new machine are a map
* `Machine.failed_register` — a registration that fails
* `Machine.registered_registerAll` — any number of registrations
* `Machine.loses_place` — every machine comes to lose a place when its heap is filled
-/

namespace SwarmVm

/-! ### Tables under names -/

namespace Heap

variable {h h' : Heap} {t k v : Ref} {name : NameId}

/-- What a table has under a name. -/
def named? (h : Heap) (t : Ref) (name : NameId) : Option Ref :=
  h.fieldWith? t fun key => h.value key = .string name

/-- It is found under every object that is the name. -/
theorem tableGet?_of_string (hk : h.value k = .string name) :
    h.tableGet? t k = h.named? t name := by
  refine congrArg (Option.bind · h.fieldValue?) (List.find?_congr fun q _ => ?_)
  rw [hasKey]
  cases h.key? q with
  | none => rfl
  | some key => rw [Option.any_some, Option.any_some, Bool.eq_iff_iff, beq_compare,
      alike_iff_of_string hk, decide_eq_true_iff]

theorem KeepsTable.named? (kt : KeepsTable h h' t) : h'.named? t = h.named? t :=
  funext fun name => kt.fieldWith? fun key hkey => by rw [hkey]

/-- A table keeps its fields in a heap that grows, if its keys are there. -/
theorem Grows.keepsTable (g : Grows h h') (wf : h.WellFormed) (ht : h.Whole t) :
    KeepsTable h h' t := by
  refine ⟨g.spares.unaltered ht.isValid, fun q hq k hk => ?_⟩
  obtain ⟨hs, hpair⟩ := mem_pairSlots hq
  have points : h.PointsTo t k :=
    (wf.pointsTo_iff ⟨ht.isValid, kind_eq_table_of_mem_chain hs⟩).2
      ⟨_, hs, _, (PairSlot.key_lt hpair).1, hk⟩
  exact (g.spares.unaltered (ht.of_pointsTo points).isValid).value

theorem pointsTo_iff_mem_arraySlots {e : Ref} (wf : h.WellFormed) (ht : h.IsTable t) :
    h.PointsTo t e ↔ some e ∈ h.arraySlots t := by
  rw [wf.pointsTo_iff ht, arraySlots]
  simp [elements]

/-- An object that is not altered refers to what it referred to. -/
theorem Unaltered.pointsTo {r e : Ref} (u : Unaltered h h' r) (wf : h.WellFormed)
    (wf' : h'.WellFormed) (hv : h.isValid r = true) (he : h'.PointsTo r e) : h.PointsTo r e := by
  cases he with
  | captured hc hcap => exact .captured (u.value ▸ hc) hcap
  | element ht hs hk helement =>
    have ht' : h'.IsTable r := ⟨u.isValid, (kind_of_value ht (by simp)).2⟩
    have hkind : h.IsTable r := ⟨hv, (u.kind hv).symm.trans ht'.2⟩
    rw [pointsTo_iff_mem_arraySlots wf hkind, ← u.slots, ← pointsTo_iff_mem_arraySlots wf' ht']
    exact .element ht hs hk helement

/-- Everything that can be reached from an object is there in a heap that has grown. -/
theorem Whole.grows {r : Ref} (hr : h.Whole r) (wf : h.WellFormed) (g : Grows h h') :
    h'.Whole r := by
  intro e path
  have hwhole : h.Whole e := by
    induction path with
    | refl => exact hr
    | tail _ he ih =>
      exact ih.of_pointsTo
        ((g.spares.unaltered ih.isValid).pointsTo wf g.wellFormed ih.isValid he)
  exact (g.spares.unaltered hwhole.isValid).isValid

namespace Mapped

theorem named?_eq_some_iff (m : h.Mapped t) : h.named? t name = some v
    ↔ ∃ e ∈ h.tableEntries t, h.value e.1 = .string name ∧ e.2 = v := by
  have found : ∀ {k}, h.value k = .string name → (h.named? t name = some v
      ↔ ∃ e ∈ h.tableEntries t, h.value e.1 = .string name ∧ e.2 = v) := by
    intro k hk
    rw [← tableGet?_of_string hk, m.tableGet?_eq_some_iff]
    simp only [alike_iff_of_string hk]
  -- some object is the name, in either case
  refine ⟨fun hs => ?_, fun ⟨e, he, hk, hv⟩ => (found hk).2 ⟨e, he, hk, hv⟩⟩
  obtain ⟨q, hq, -⟩ := Option.bind_eq_some_iff.1 hs
  have hkey := List.find?_some hq
  obtain ⟨k, -, hk⟩ := (Option.any_eq_true _ _).1 hkey
  exact (found (of_decide_eq_true hk)).1 hs

/-- Growing does not alter a map. -/
theorem grows (m : h.Mapped t) (g : Grows h h') : h'.Mapped t :=
  m.unaltered (g.spares.unaltered m.isTable.1) fun e he =>
    have u := g.spares.unaltered (m.keys e he).1
    ⟨u.isValid, u.value⟩

end Mapped

/-- What is stored under a name is found there, and everything else where it was. -/
theorem named?_tableSet (wf : h.WellFormed) (tidy : h.Tidy) (m : h.Mapped t)
    (hk : h.value k = .string name) (hv : h.kind v ≠ .nil) : Ends (tableSet t k v) h
      (fun _ h' => h'.Mapped t ∧ h'.named? t = Function.update (h.named? t) name (some v))
      fun _ h' => h' = h := by
  have hkey := kind_of_value hk (by simp)
  refine ((edit_tableSet wf tidy m (k := k) (by simp [hkey.2, Value.kind])).and
    (spares_tableSet wf (fun _ => m.isTable.1) k v)).imp (fun _ h' hs => ?_) fun _ _ he => he.1
  obtain ⟨⟨m', ed⟩, sp⟩ := hs
  refine ⟨m', funext fun name' => Option.ext fun w => ?_⟩
  have before : h'.named? t name' = some w
      ↔ ∃ e ∈ h'.tableEntries t, h.value e.1 = .string name' ∧ e.2 = w := by
    rw [m'.named?_eq_some_iff]
    exact exists_congr fun e => and_congr_right fun he =>
      and_congr_left' (m.key_edited m' sp hkey.1 ed he)
  rw [before]
  by_cases hn : name' = name
  · have stored := ed.stored_of_alike (w := w) ((alike_equivalence h).refl k)
    simp only [alike_iff_of_string hk] at stored
    rw [hn, Function.update_self, stored, and_iff_right hv, Option.some.injEq]
  · rw [Function.update_of_ne hn, m.named?_eq_some_iff]
    refine exists_congr fun e => and_congr_left fun he => ed.mem_iff_of_not_alike fun hek => ?_
    rw [alike_iff_of_string hk, he.1] at hek
    exact hn (Value.string.inj hek)

end Heap

namespace Machine

open Heap (Grows Whole)

variable {F α : Type} {m m₁ m' : Machine F} {name : NameId} {f : F}
  {number : UInt16} {e : Halt} {r t : Ref} {v : Value}

/-! ### Globals -/

/-- What a name is bound to. -/
def bound? (m : Machine F) (name : NameId) : Option Ref := m.heap.named? m.globals name

/-- `m'` is `m` with a heap that has grown. -/
structure Littered (m m' : Machine F) : Prop where
  /-- Nothing else is different. -/
  same : m' = { m with heap := m'.heap }
  /-- The heap has grown. -/
  grows : Grows m.heap m'.heap

namespace Littered

theorem refl (wf : m.heap.WellFormed) : Littered m m := ⟨rfl, .refl wf⟩

theorem trans (l : Littered m m₁) (l' : Littered m₁ m') : Littered m m' := by
  refine ⟨?_, l.grows.trans l'.grows⟩
  rw [l'.same, l.same]

theorem expands (l : Littered m m') : Expands m m' := by
  refine ⟨?_, l.grows⟩
  rw [l.same]

theorem reliable (l : Littered m m') (hm : m.Reliable Whole) : m'.Reliable Whole := by
  rw [l.same]
  exact ⟨l.grows.wellFormed, hm.floor, hm.ceiling, fun r hr => (hm.slots r hr).grows hm.wellFormed
    l.grows, fun r hr => (hm.registers r hr).grows hm.wellFormed l.grows⟩

end Littered

theorem Expands.bound? (x : Expands m m') (hm : m.Reliable Whole) : m'.bound? = m.bound? := by
  have hglobals : m'.globals = m.globals := by rw [x.same]
  funext name
  rw [Machine.bound?, hglobals, (x.grows.keepsTable hm.wellFormed hm.globals).named?]
  rfl

/-- An object more, or nothing at all. -/
theorem ends_allocObject (wf : m.heap.WellFormed) (hn : v ≠ .nil) (ht : ∀ t, v ≠ .table t) :
    Ends (alloc v) m (fun r m' => Littered m m' ∧ m'.value r = v
        ∧ m.heap.vacancies = m'.heap.vacancies + 1)
      fun e m' => e = .fault .outOfMemory ∧ m' = m ∧ m.heap.vacancies = 0 := by
  have object : Ends (onHeap (Heap.allocValue v)) m (fun r m' => Littered m m' ∧ m'.value r = v
        ∧ m.heap.vacancies = m'.heap.vacancies + 1)
      fun e m' => e = .fault .outOfMemory ∧ m' = m ∧ m.heap.vacancies = 0 := by
    have hx := (Heap.grows_allocValue wf ht).and (Heap.vacancies_allocValue wf v)
    refine ((ends_onHeap hx).and (ends_onHeap_of hx)).imp ?_ ?_
    · rintro r _ ⟨⟨h, ⟨⟨g, -, hv⟩, room⟩, rfl⟩, -⟩
      exact ⟨⟨rfl, g⟩, hv, room⟩
    · rintro _ _ ⟨⟨_, h, ⟨rfl, -, full⟩, rfl⟩, he⟩
      exact ⟨he, rfl, full⟩
  cases v with
  | nil => exact absurd rfl hn
  | table t => exact absurd rfl (ht t)
  | _ => exact object

theorem littered_alloc (wf : m.heap.WellFormed) (hn : v ≠ .nil) (ht : ∀ t, v ≠ .table t) :
    Ends (alloc v) m (fun r m' => Littered m m' ∧ m'.value r = v)
      fun e m' => e = .fault .outOfMemory ∧ Littered m m' := by
  refine (ends_allocObject wf hn ht).imp (fun _ _ h => ⟨h.1, h.2.1⟩) ?_
  rintro _ _ ⟨he, rfl, -⟩
  exact ⟨he, .refl wf⟩

/-- A global is what its name is bound to. -/
theorem ends_global (hm : m.Reliable Whole) (name : NameId) : Ends (global name) m
    (fun r m' => r = (m.bound? name).getD m.nil ∧ Littered m m')
      fun e m' => e = .fault .outOfMemory ∧ Littered m m' := by
  refine ends_get_bind (ends_bind (littered_alloc hm.wellFormed (by simp) (by simp))
    fun key m₁ h₁ => ?_)
  obtain ⟨l, hkey⟩ := h₁
  have hglobals : m₁.globals = m.globals := by rw [l.same]
  have hnil : m₁.nil = m.nil := by rw [l.same]
  have u := l.expands.unaltered hm.globals.isValid
  refine ends_bind (Q := fun _ m' => m' = m₁) ?_ fun _ m' he => ends_get_bind (ends_pure ?_)
  · rw [ends_iff, touch_eq l.grows.wellFormed fun _ => u.isValid]
  subst he
  rw [Heap.tableGet?_of_string hkey, ← hglobals, hnil]
  exact ⟨congrArg (Option.getD · m.nil) (congrFun (l.expands.bound? hm) name), l⟩

/-- Binding a name makes an object for it first, and then only the table of globals is altered. -/
theorem ends_setGlobal (hm : m.Reliable Whole) (name : NameId) {Q : Heap → Prop}
    (hQ : ∀ {k m₁}, Littered m m₁ → m₁.value k = .string name →
      Ends (Heap.tableSet m.globals k r) m₁.heap (fun _ => Q) fun _ h => h = m₁.heap) :
    Ends (setGlobal name r) m (fun _ m' => ∃ h, Q h ∧ m' = { m with heap := h })
      fun e m' => e = .fault .outOfMemory ∧ Littered m m' := by
  refine ends_get_bind (ends_bind (littered_alloc hm.wellFormed (by simp) (by simp))
    fun key m₁ h₁ => ?_)
  obtain ⟨l, hkey⟩ := h₁
  have u := l.expands.unaltered hm.globals.isValid
  refine ends_bind (Q := fun _ m' => m' = m₁) ?_ fun _ m₂ he => ?_
  · rw [ends_iff, touch_eq l.grows.wellFormed fun _ => u.isValid]
  subst he
  refine ((ends_onHeap (hQ l hkey)).and (ends_onHeap_of (hQ l hkey))).imp ?_ ?_
  · rintro _ _ ⟨⟨h, hq, rfl⟩, -⟩
    refine ⟨h, hq, ?_⟩
    rw [l.same]
  · rintro _ _ ⟨⟨_, _, rfl, rfl⟩, he⟩
    exact ⟨he, l⟩

/-- The globals are a map, all that the machine refers to is there, and free slots are tidy. -/
structure Hosting (m : Machine F) : Prop extends m.Reliable Whole where
  /-- Free slots are tidy. -/
  tidy : m.heap.Tidy
  /-- The globals are a map. -/
  globals : m.heap.Mapped m.globals

namespace Hosting

theorem sound (hm : m.Hosting) : m.Sound := ⟨hm.wellFormed, hm.tidy, hm.floor, hm.ceiling⟩

theorem expands (hm : m.Hosting) (x : Expands m m') (reliable : m'.Reliable Whole) :
    m'.Hosting := by
  refine ⟨reliable, x.grows.tidy hm.tidy, ?_⟩
  have hglobals : m'.globals = m.globals := by rw [x.same]
  rw [hglobals]
  exact hm.globals.grows x.grows

theorem littered (hm : m.Hosting) (l : Littered m m') : m'.Hosting :=
  hm.expands l.expands (l.reliable hm.toReliable)

/-- A new object that refers to no other. -/
theorem ends_alloc (hm : m.Hosting) (hn : v ≠ .nil) (ht : ∀ t, v ≠ .table t)
    (hc : ∀ c, v = .closure c → c.captured = none) : Ends (alloc v) m
      (fun r m' => Littered m m' ∧ m'.Hosting ∧ m'.value r = v ∧ m'.heap.Whole r)
      fun e m' => e = .fault .outOfMemory ∧ Littered m m' := by
  have yields := yields_alloc Heap.reliance_whole hm.toReliable (v := v) fun c e hv he => by
    rw [hc c hv] at he
    cases he
  exact ((littered_alloc hm.wellFormed hn ht).and yields).imp
    (fun r m' h => ⟨h.1.1, hm.littered h.1.1, h.1.2, h.2.2⟩) fun _ _ h => h.1

/-- A name that is bound is bound to the object, and all others are bound to what they were. -/
theorem ends_setGlobal (hm : m.Hosting) (name : NameId) (hr : m.heap.Whole r)
    (hk : m.heap.kind r ≠ .nil) : Ends (setGlobal name r) m (fun _ m' => m'.Hosting
      ∧ m'.bound? = Function.update m.bound? name (some r)
      ∧ m.heap.Spares {m.globals} m'.heap ∧ ∃ h, m' = { m with heap := h })
      fun e m' => e = .fault .outOfMemory ∧ Littered m m' := by
  have stores := Machine.ends_setGlobal hm.toReliable name (r := r)
    (Q := fun h => h.Mapped m.globals ∧ h.Tidy
      ∧ h.named? m.globals = Function.update m.bound? name (some r)
      ∧ m.heap.Spares {m.globals} h) fun {k m₁} l hkey => ?_
  · refine (stores.and (yields_setGlobal Heap.reliance_whole hm.toReliable hr)).imp ?_
      fun _ _ h => h.1
    rintro _ _ ⟨⟨h, ⟨mapped, tidy, hnamed, sp⟩, rfl⟩, st, -⟩
    exact ⟨⟨st.reliable, tidy, mapped⟩, hnamed, sp, h, rfl⟩
  · have hm₁ := hm.littered l
    have hglobals : m₁.globals = m.globals := by rw [l.same]
    have u := l.expands.unaltered hr.isValid
    have mapped := hm₁.globals
    rw [hglobals] at mapped
    have hnamed : m₁.heap.named? m.globals = m.bound? := by
      rw [← l.expands.bound? hm.toReliable, ← hglobals]
      rfl
    have ht : m₁.heap.kind m.globals = .table → m₁.heap.isValid m.globals = true :=
      fun _ => mapped.isTable.1
    refine (((Heap.named?_tableSet hm₁.wellFormed hm₁.tidy mapped hkey
      (by rwa [u.kind hr.isValid])).and (Heap.spares_tableSet hm₁.wellFormed ht k r)).and
      (Heap.evolves_tableSet hm₁.wellFormed ht (Set.mem_univ (Heap.slotRef k))
        (Set.mem_univ (Heap.slotRef r)))).imp (fun _ h hs => ?_) fun _ _ h => h.1.1
    obtain ⟨⟨⟨mapped', hset⟩, sp⟩, ev⟩ := hs
    exact ⟨mapped', ev.tidy hm₁.tidy, hnamed ▸ hset, (l.grows.spares.mono (by simp)).trans sp⟩

end Hosting

/-! ### New machines -/

theorem grows_keep {h : Heap} {E : OutOfMemory → Heap → Prop} (wf : h.WellFormed) (r : Ref) :
    Ends (keep r) h (fun r' h' => r' = r ∧ Grows h h') E :=
  ends_bind (ends_modify (Q := fun _ h' => Grows h h') (Heap.grows_setPermanent wf r true))
    fun _ _ g => ends_pure ⟨rfl, g⟩

theorem grows_tableNew {h : Heap} (wf : h.WellFormed) : Ends Heap.tableNew h
    (fun t h' => Grows h h' ∧ h'.Mapped t) fun _ _ => True :=
  (Heap.fielded_tableNew wf).imp (fun _ _ h => ⟨h.2.2.2, h.1.toMapped⟩) fun _ _ _ => trivial

/-- The globals are made as a table without entries. -/
theorem mapped_coreObjects {size : Nat} (accepted : Heap.refusal? size = none) :
    Ends coreObjects (Heap.make size) (fun p h => h.Mapped p.2.2.1) fun _ _ => True := by
  obtain ⟨wf₀, -⟩ := Heap.wellFormed_make accepted
  refine ends_bind ((Heap.grows_allocValue (v := .nil) wf₀ (by simp)).imp (fun _ _ h => h.1)
    fun _ _ _ => trivial) fun nil h₁ g₁ => ?_
  refine ends_bind (grows_keep g₁.wellFormed nil) fun _ h₂ h => ?_
  obtain ⟨rfl, g₂⟩ := h
  refine ends_bind ((Heap.newObject_arrayNew (A := Set.univ) g₂.wellFormed).imp (fun _ _ => id)
    fun _ _ _ => trivial) fun record h₃ h => ?_
  obtain ⟨n, ht⟩ := h
  refine ends_bind ((Heap.evolves_arrayPush (A := Set.univ) n.evolves.wellFormed (fun _ => ht.1)
    (Set.mem_univ _)).imp (fun _ _ => id) fun _ _ _ => trivial) fun _ h₄ ev => ?_
  refine ends_bind (grows_keep ev.wellFormed record) fun _ h₅ h => ?_
  obtain ⟨rfl, g₅⟩ := h
  refine ends_bind (grows_tableNew g₅.wellFormed) fun globals h₆ h => ?_
  obtain ⟨g₆, mapped⟩ := h
  refine ends_bind (grows_keep g₆.wellFormed globals) fun _ h₇ h => ?_
  obtain ⟨rfl, g₇⟩ := h
  refine ends_bind (grows_tableNew g₇.wellFormed) fun listeners h₈ h => ?_
  obtain ⟨g₈, -⟩ := h
  refine ends_bind (grows_keep g₈.wellFormed listeners) fun _ h₉ h => ?_
  obtain ⟨rfl, g₉⟩ := h
  exact ends_pure (((mapped.grows g₇).grows g₈).grows g₉)

theorem hosting_blank {s : Settings} {nil record globals listeners : Ref} {heap : Heap}
    (accepted : Heap.refusal? s.heapSize = none)
    (hc : coreObjects (Heap.make s.heapSize) = .ok (nil, record, globals, listeners) heap) :
    (blank s nil record globals listeners heap : Machine F).Hosting := by
  have hl := (ends_coreObjects accepted).of_ok hc
  exact ⟨reliable_blank hl.wellFormed hl.whole, hl.tidy, (mapped_coreObjects accepted).of_ok hc⟩

theorem Sound.expands (hm : m.Sound) (x : Expands m m') : m'.Sound := by
  rw [x.same]
  exact ⟨x.grows.wellFormed, x.grows.tidy hm.tidy, hm.floor, hm.ceiling⟩

/-- Methods are put into a new table. -/
theorem Drafts.addMethods (hm : m.Sound) (d : Drafts m t m₁)
    (methods : List (Builtin × Primitive)) :
    Ends (addMethods t methods) m₁ (fun _ m' => Drafts m t m') fun _ _ => True := by
  induction methods generalizing m₁ with
  | nil => exact ends_pure d
  | cons method rest ih =>
    refine ends_bind ((Machine.ends_alloc d.grows.wellFormed (by simp) (by simp)).imp
      (fun _ _ => id) fun _ _ _ => trivial) fun function m₂ h₂ => ?_
    obtain ⟨x, hv⟩ := h₂
    have d₂ := d.expands x
    refine ends_bind (ends_bindClosure (hm.expands d₂.toExpands) d₂.isTable hv) fun r m₃ h₃ => ?_
    obtain ⟨record, b⟩ := h₃
    refine ends_bind (((d₂.expands b.toExpands).setField hm.tidy method.1.nameId r).imp
      (fun _ _ => id) fun _ _ _ => trivial) fun _ m₄ h₄ => ih h₄.1

theorem drafts_methodTable (hm : m.Sound) (methods : List (Builtin × Primitive)) :
    Ends (methodTable methods) m (fun t m' => Drafts m t m') fun _ _ => True :=
  ends_bind ((ends_tableNew hm.wellFormed).imp (fun _ _ => id) fun _ _ _ => trivial) fun _ _ h =>
    ends_bind (h.1.addMethods hm methods) fun _ _ d => ends_pure d

/-- The object can be bound to a name. -/
structure Bindable (m : Machine F) (r : Ref) : Prop extends m.Hosting where
  /-- All that can be reached from it is there. -/
  whole : m.heap.Whole r
  /-- It is not nil. -/
  kind : m.heap.kind r ≠ .nil

theorem Bindable.ends_setGlobal (hr : Bindable m r) (name : NameId) :
    Ends (setGlobal name r) m (fun _ m' => m'.Hosting) fun _ _ => True :=
  (hr.toHosting.ends_setGlobal name hr.whole hr.kind).imp (fun _ _ h => h.1) fun _ _ _ => trivial

theorem Hosting.bindable_alloc (hm : m.Hosting) (hn : v ≠ .nil) (ht : ∀ t, v ≠ .table t)
    (hc : ∀ c, v = .closure c → c.captured = none) :
    Ends (alloc v) m (fun r m' => Bindable m' r) fun _ _ => True := by
  refine (hm.ends_alloc hn ht hc).imp (fun r m' h => ?_) fun _ _ _ => trivial
  obtain ⟨-, hm', hr, whole⟩ := h
  refine ⟨hm', whole, ?_⟩
  rw [(Heap.kind_of_value hr hn).2]
  cases v <;> simp_all [Value.kind]

theorem Hosting.bindable_methodTable (hm : m.Hosting) (methods : List (Builtin × Primitive)) :
    Ends (methodTable methods) m (fun r m' => Bindable m' r) fun _ _ => True := by
  refine ((drafts_methodTable hm.sound methods).and (yields_methodTable Heap.reliance_whole
    hm.toReliable)).imp (fun t m' h => ?_) fun _ _ _ => trivial
  obtain ⟨d, st, whole⟩ := h
  exact ⟨hm.expands d.toExpands st.reliable, whole, by simp [d.isTable.2]⟩

/-- The standard globals are bound in a map. -/
theorem hosting_bindGlobals (hm : m.Hosting) :
    Ends bindGlobals m (fun _ m' => m'.Hosting) fun _ _ => True := by
  refine ends_get_bind (ends_bind (hm.bindable_alloc (by simp) (by simp) (by simp))
    fun _ _ h₁ => ends_bind (h₁.ends_setGlobal _) fun _ _ hm₁ => ?_)
  refine ends_bind (hm₁.bindable_alloc (by simp) (by simp) fun c hc => ?_)
    fun _ _ h₂ => ends_bind (h₂.ends_setGlobal _) fun _ _ hm₂ => ?_
  · rw [← Value.closure.inj hc]
    rfl
  exact ends_bind (hm₂.bindable_methodTable _) fun _ _ h₃ => ends_bind (h₃.ends_setGlobal _)
    fun _ _ hm₃ => ends_bind (hm₃.bindable_methodTable _) fun _ _ h₄ =>
      ends_bind (h₄.ends_setGlobal _) fun _ _ hm₄ => ends_bind (hm₄.bindable_methodTable _)
        fun _ _ h₅ => h₅.ends_setGlobal _

/-- The globals of a new machine are a map, and all that it refers to is there. -/
theorem hosting_make {s : Settings} (hm : make s = .ok m) : m.Hosting := by
  obtain ⟨nil, record, globals, listeners, heap, accepted, hc, hx⟩ := exists_bindGlobals_of_make hm
  exact (hosting_bindGlobals (hosting_blank accepted hc)).of_ok hx

/-! ### One registration -/

/-- How many functions can still be registered. -/
def places (m : Machine F) : Nat := m.functionCapacity - m.functions.size

/-- The machine with one function more on its list. -/
def enlist (m : Machine F) (f : F) : Machine F := { m with functions := m.functions.push f }

theorem places_enlist (hp : 0 < m.places) (f : F) : (m.enlist f).places + 1 = m.places := by
  have hsize : (m.enlist f).functions.size = m.functions.size + 1 := Array.size_push f
  have hcapacity : (m.enlist f).functionCapacity = m.functionCapacity := rfl
  rw [places] at hp
  rw [places, places, hsize, hcapacity]
  omega

theorem Hosting.enlist (hm : m.Hosting) (f : F) : (m.enlist f).Hosting :=
  ⟨⟨hm.wellFormed, hm.floor, hm.ceiling, hm.slots, hm.registers⟩, hm.tidy, hm.globals⟩

/-- Make a closure of a host function, and bind it to a name. -/
def bindHost (name : NameId) (number : UInt16) : Action F UInt16 := do
  let closure ← alloc (.closure (.ofHost number))
  setGlobal name closure
  return number

theorem register_eq (m : Machine F) (name : NameId) (f : F) : register name f m
    = (require (m.functions.size < m.functionCapacity) .functionList >>= fun _ =>
        modify (·.enlist f) >>= fun _ => bindHost name (UInt16.ofNat m.functionCount)) m := rfl

/-- Whether there is a place is found out first. -/
theorem register_of_no_place (hp : m.places = 0) (name : NameId) (f : F) :
    register name f m = .error (.fault .functionList) m := by
  rw [register_eq, decide_eq_false (Nat.not_lt.2 (Nat.sub_eq_zero_iff_le.1 hp))]
  rfl

/-- The function takes its place, and then its name is bound. -/
theorem register_of_place (hp : 0 < m.places) (name : NameId) (f : F) :
    register name f m = bindHost name (UInt16.ofNat m.functionCount) (m.enlist f) := by
  rw [register_eq, decide_eq_true (Nat.lt_of_sub_pos hp)]
  rfl

/-- Without room the name is not bound. -/
theorem ends_bindHost (hm : m.Reliable Whole) : Ends (bindHost name number) m
    (fun number' m' => number' = number ∧ ∃ h, m' = { m with heap := h })
    fun e m' => e = .fault .outOfMemory ∧ Littered m m' := by
  refine ends_bind (littered_alloc hm.wellFormed (by simp) (by simp)) fun r m₁ h₁ => ?_
  obtain ⟨l, -⟩ := h₁
  have hm₁ := l.reliable hm
  have bound := ends_setGlobal hm₁ name (r := r) (Q := fun _ => True)
    fun {k m₂} l₂ _ => (Heap.spares_tableSet l₂.grows.wellFormed
      (fun _ => (l₂.expands.unaltered hm₁.globals.isValid).isValid) k r).imp
        (fun _ _ _ => trivial) fun _ _ => id
  refine ends_bind (bound.imp (fun _ _ => id) fun _ _ h => ⟨h.1, l.trans h.2⟩) fun _ m₂ h₂ => ?_
  obtain ⟨h, -, he⟩ := h₂
  refine ends_pure ⟨rfl, h, ?_⟩
  rw [he, l.same]

/-- With room it is bound to a closure of the host function. -/
theorem Hosting.ends_bindHost (hm : m.Hosting) : Ends (bindHost name number) m
    (fun number' m' => number' = number ∧ m'.Hosting ∧ (∃ h, m' = { m with heap := h })
      ∧ m.heap.Spares {m.globals} m'.heap
      ∧ ∃ r, m'.bound? = Function.update m.bound? name (some r)
        ∧ m'.value r = .closure (.ofHost number))
    fun e m' => e = .fault .outOfMemory ∧ Littered m m' := by
  refine ends_bind (hm.ends_alloc (by simp) (by simp) fun c hc => ?_) fun r m₁ h₁ => ?_
  · rw [← Value.closure.inj hc]
    rfl
  obtain ⟨l, hm₁, hr, hwhole⟩ := h₁
  have hkind := (Heap.kind_of_value hr (by simp)).2
  have ne : r ≠ m₁.globals := by
    rintro rfl
    rw [hm₁.globals.isTable.2] at hkind
    cases hkind
  refine ends_bind ((hm₁.ends_setGlobal name hwhole (by simp [hkind, Value.kind])).imp
    (fun _ _ => id) fun _ _ h => ⟨h.1, l.trans h.2⟩) fun _ m₂ h₂ => ?_
  obtain ⟨hm₂, hbound, sp, h, he⟩ := h₂
  have hglobals : m₁.globals = m.globals := by rw [l.same]
  rw [hglobals] at sp ne
  refine ends_pure ⟨rfl, hm₂, ⟨h, ?_⟩, (l.grows.spares.mono (by simp)).trans sp, r, ?_, ?_⟩
  · rw [he, l.same]
  · rw [hbound, l.expands.bound? hm.toReliable]
  · exact (sp.unaltered_of_ne ne hwhole.isValid).value.trans hr

theorem ends_onHeap_fault (x : HeapM α) :
    Ends (onHeap x) m (fun _ _ => True) fun e _ => e = .fault .outOfMemory :=
  (ends_onHeap_of (Q := fun _ _ => True) (E := fun _ _ => True)
    ⟨fun _ => trivial, fun _ => trivial⟩).imp (fun _ _ _ => trivial) fun _ _ => id

/-- Whatever the state of the machine, a name fails to be bound for want of room only. -/
theorem ends_bindHost_fault (m : Machine F) (name : NameId) (number : UInt16) :
    Ends (bindHost name number) m (fun _ _ => True) fun e _ => e = .fault .outOfMemory := by
  refine ends_bind (ends_onHeap_fault _) fun _ m₁ _ => ?_
  refine ends_bind (Q := fun _ _ => True) (ends_get_bind (ends_bind (ends_onHeap_fault _)
    fun _ _ _ => ends_bind (ends_modify (Q := fun _ _ => True) trivial) fun _ _ _ =>
      ends_onHeap_fault _)) fun _ _ _ => ends_pure trivial

/-- A registration is refused for want of a place exactly if there is none. -/
theorem register_refused_iff :
    register name f m = .error (.fault .functionList) m ↔ m.places = 0 := by
  refine ⟨fun hr => ?_, fun hp => register_of_no_place hp name f⟩
  by_contra hp
  rw [register_of_place (Nat.pos_of_ne_zero hp)] at hr
  have := (ends_bindHost_fault _ _ _).of_error hr
  simp at this

/-- **What a failed registration leaves behind.** All names are bound to what they were bound to,
and no object is altered. When there was no place on the list, nothing at all is different.
Otherwise there was no room, and the function is on the list all the same. So a later registration,
whatever room there is then, is refused for want of a place if there was only one. -/
theorem failed_register (hm : m.Reliable Whole) (failed : register name f m = .error e m') :
    (m'.bound? = m.bound? ∧ ∀ r, m.heap.isValid r = true → m.heap.Unaltered m'.heap r)
    ∧ (e = .fault .functionList ∧ m.places = 0 ∧ m' = m
      ∨ e = .fault .outOfMemory ∧ m'.functions = m.functions.push f ∧ m'.places + 1 = m.places)
    ∧ ∀ later : Machine F, later.functions = m'.functions →
      later.functionCapacity = m'.functionCapacity → ∀ name' f',
        register name' f' later = .error (.fault .functionList) later ↔ m.places ≤ 1 := by
  have retry : ∀ later : Machine F, later.functions = m'.functions →
      later.functionCapacity = m'.functionCapacity → ∀ name' f',
        register name' f' later = .error (.fault .functionList) later ↔ m'.places = 0 := by
    intro later hfunctions hcapacity name' f'
    rw [register_refused_iff, places, places, hfunctions, hcapacity]
  rcases Nat.eq_zero_or_pos m.places with hp | hp
  · rw [register_of_no_place hp] at failed
    cases failed
    refine ⟨⟨rfl, fun _ => .refl⟩, .inl ⟨rfl, hp, rfl⟩, fun later hf hc name' f' => ?_⟩
    rw [retry later hf hc, hp]
    simp
  · have hm₁ : (m.enlist f).Reliable Whole :=
      ⟨hm.wellFormed, hm.floor, hm.ceiling, hm.slots, hm.registers⟩
    rw [register_of_place hp] at failed
    obtain ⟨he, l⟩ := (ends_bindHost hm₁).of_error failed
    have hplaces : m'.places + 1 = m.places := by
      rw [← places_enlist hp f, l.same]
      rfl
    refine ⟨⟨l.expands.bound? hm₁, fun r => l.expands.unaltered⟩, .inr ⟨he, ?_, hplaces⟩,
      fun later hf hc name' f' => ?_⟩
    · rw [l.same]
      rfl
    · rw [retry later hf hc]
      omega

/-! ### Registrations one after another -/

/-- The number of the host function that a value is a closure of. -/
def hostNumber? : Value → Option UInt16
  | .closure ⟨.host number, _⟩ => some number
  | _ => none

/-- The number of the host function that a name is bound to. -/
def hostOf? (m : Machine F) (name : NameId) : Option UInt16 :=
  (m.bound? name).bind fun r => hostNumber? (m.value r)

theorem Hosting.whole_of_bound? (hm : m.Hosting) (hb : m.bound? name = some r) :
    m.heap.Whole r := by
  obtain ⟨e, -, hk, -⟩ := hm.globals.named?_eq_some_iff.1 hb
  have points : m.heap.PointsTo m.globals r := Heap.pointsTo_of_tableGet? hm.wellFormed
    (fun _ => hm.globals.isTable.1) ((Heap.tableGet?_of_string hk).trans hb)
  exact (hm.toReliable.globals).of_pointsTo points

theorem Hosting.hostOf?_littered (hm : m.Hosting) (l : Littered m m') :
    m'.hostOf? = m.hostOf? := by
  funext name
  rw [hostOf?, hostOf?, l.expands.bound? hm.toReliable]
  cases hb : m.bound? name with
  | none => rfl
  | some r =>
    exact congrArg hostNumber? (l.expands.unaltered (hm.whole_of_bound? hb).isValid).value

/-- A name that is bound to a host function leads to it, and all others lead where they led. -/
theorem Hosting.hostOf?_bound (hm : m.Hosting) (hm' : m'.Hosting) (hglobals : m'.globals = m.globals)
    (sp : m.heap.Spares {m.globals} m'.heap)
    (hbound : m'.bound? = Function.update m.bound? name (some r))
    (hr : m'.value r = .closure (.ofHost number)) :
    m'.hostOf? = Function.update m.hostOf? name (some number) := by
  funext name'
  rw [hostOf?, hbound]
  by_cases hn : name' = name
  · rw [hn, Function.update_self, Function.update_self, Option.bind_some, hr]
    rfl
  rw [Function.update_of_ne hn, Function.update_of_ne hn, hostOf?]
  cases hb : m.bound? name' with
  | none => rfl
  | some w =>
    rw [Option.bind_some, Option.bind_some]
    by_cases hw : w = m.globals
    · have table : ∀ {m : Machine F}, m.Hosting → hostNumber? (m.value m.globals) = none := by
        intro m hm
        obtain ⟨tv, hv, -⟩ := hm.globals.isTable.value
        rw [value, hv]
        rfl
      rw [hw, table hm, ← hglobals, table hm']
    · exact congrArg hostNumber? (sp.unaltered_of_ne hw (hm.whole_of_bound? hb).isValid).value

/-- What the `i`th of some registrations answers. As long as there are places, it is the next number,
or there is no room. -/
def Answers (m : Machine F) (i : Nat) (answer : Except Fault UInt16) : Prop :=
  if i < m.places then
    answer = .ok (UInt16.ofNat (m.functionCount + i)) ∨ answer = .error .outOfMemory
  else answer = .error .functionList

/-- Where names lead after a registration that has answered. -/
def rebound (hosts : NameId → Option UInt16) :
    (NameId × F) × Except Fault UInt16 → NameId → Option UInt16
  | ((name, _), .ok number) => Function.update hosts name (some number)
  | (_, .error _) => hosts

/-- `m'` is what is left of `m` after the registrations `l`, which have given the answers. -/
structure Registered (m : Machine F) (l : List (NameId × F)) (answers : List (Except Fault UInt16))
    (m' : Machine F) : Prop where
  /-- The machine can host functions. -/
  hosting : m'.Hosting
  /-- The list may be as long as before. -/
  capacity : m'.functionCapacity = m.functionCapacity
  /-- The first functions are on the list, as many as there were places, whatever was answered. -/
  functions : m'.functions.toList = m.functions.toList ++ (l.map Prod.snd).take m.places
  /-- There are as many answers, -/
  length : answers.length = l.length
  /-- each of them as it should be. -/
  answer : ∀ i a, answers[i]? = some a → m.Answers i a
  /-- The names that were registered lead to their functions, unless there was an error. -/
  hosts : m'.hostOf? = (l.zip answers).foldl rebound m.hostOf?

namespace Registered

variable {l l' : List (NameId × F)} {answers answers' : List (Except Fault UInt16)}

theorem refl (hm : m.Hosting) : Registered m [] [] m where
  hosting := hm
  capacity := rfl
  functions := by simp
  length := rfl
  answer := by simp
  hosts := rfl

theorem size (rg : Registered m l answers m') :
    m'.functions.size = m.functions.size + min m.places l.length := by
  simpa using congrArg List.length rg.functions

/-- Each registration takes a place. -/
theorem places (rg : Registered m l answers m') : m'.places = m.places - l.length := by
  have hsize := rg.size
  rw [Machine.places, Machine.places] at *
  rw [rg.capacity]
  omega

theorem trans (rg : Registered m l answers m₁) (rg' : Registered m₁ l' answers' m') :
    Registered m (l ++ l') (answers ++ answers') m' where
  hosting := rg'.hosting
  capacity := rg'.capacity.trans rg.capacity
  functions := by
    rw [rg'.functions, rg.functions, rg.places, List.map_append, List.take_append, List.length_map,
      List.append_assoc]
  length := by rw [List.length_append, List.length_append, rg.length, rg'.length]
  answer i a ha := by
    rcases Nat.lt_or_ge i answers.length with hi | hi
    · rw [List.getElem?_append_left hi] at ha
      exact rg.answer i a ha
    · rw [List.getElem?_append_right hi] at ha
      have ha' := rg'.answer _ a ha
      have hsize := rg.size
      rw [rg.length] at hi ha'
      rw [Answers, rg.places] at ha'
      rw [Answers]
      split at ha'
      · next hlt =>
        rw [if_pos (by omega)]
        have hcount : m₁.functionCount + (i - l.length) = m.functionCount + i := by
          rw [functionCount, functionCount]
          omega
        rwa [hcount] at ha'
      · rwa [if_neg (by omega)]
  hosts := by
    rw [List.zip_append rg.length.symm, List.foldl_append, ← rg.hosts, rg'.hosts]

end Registered

/-- One registration. -/
theorem registered_register (hm : m.Hosting) (name : NameId) (f : F) :
    Ends (attempt (register name f)) m (fun a m' => Registered m [(name, f)] [a] m')
      fun _ _ => False := by
  have single : ∀ {a m'}, m'.Hosting → m'.functionCapacity = m.functionCapacity →
      m'.functions.toList = m.functions.toList ++ [f].take m.places → m.Answers 0 a →
      m'.hostOf? = rebound m.hostOf? ((name, f), a) → Registered m [(name, f)] [a] m' := by
    intro a m' hosting capacity functions answer hosts
    refine ⟨hosting, capacity, functions, rfl, fun i a' ha => ?_, hosts⟩
    obtain ⟨rfl, rfl⟩ : i = 0 ∧ a = a' := by
      cases i with
      | zero => exact ⟨rfl, Option.some.inj ha⟩
      | succ i => cases ha
    exact answer
  rcases Nat.eq_zero_or_pos m.places with hp | hp
  · rw [ends_iff, attempt, register_of_no_place hp]
    exact single hm rfl (by simp [hp]) (by rw [Answers, if_neg (by omega)]) rfl
  -- the function has its place, and what is left is to bind the name
  have functions : (m.enlist f).functions.toList = m.functions.toList ++ [f].take m.places := by
    rw [List.take_of_length_le hp, enlist, Array.toList_push]
  have hm₁ := hm.enlist f
  have ends : Ends (register name f) m
      (fun number m' => Registered m [(name, f)] [.ok number] m')
      fun e m' => e = .fault .outOfMemory ∧
        Registered m [(name, f)] [.error .outOfMemory] m' := by
    rw [ends_iff, register_of_place hp, ← ends_iff]
    refine hm₁.ends_bindHost.imp ?_ ?_
    · rintro _ m' ⟨rfl, hm', ⟨h, rfl⟩, sp, r, hbound, hr⟩
      refine single hm' rfl functions ?_ (hm₁.hostOf?_bound hm' rfl sp hbound hr)
      rw [Answers, if_pos hp]
      exact .inl rfl
    · rintro _ m' ⟨rfl, l⟩
      refine ⟨rfl, single (hm₁.littered l) (by rw [l.same]; rfl) (by rw [l.same]; exact functions) ?_
        (hm₁.hostOf?_littered l)⟩
      rw [Answers, if_pos hp]
      exact .inr rfl
  refine (ends_attempt ends).imp ?_ ?_
  · rintro _ m' (⟨number, rfl, rg⟩ | ⟨e, rfl, he, rg⟩)
    · exact rg
    · rwa [Halt.fault.inj he]
  · rintro _ m' ⟨rfl, he, -⟩
    cases he

/-- Registrations one after another, whatever each of them answers. -/
def registerAll : List (NameId × F) → Action F (List (Except Fault UInt16))
  | [] => return []
  | (name, f) :: rest => do
    let answer ← attempt (register name f)
    return answer :: (← registerAll rest)

/-- **What any number of registrations leave behind.** The first functions are on the list, as many
as there were places, also those whose registration has failed; from then on every registration is
refused. The names lead to the functions whose registration has succeeded. -/
theorem registered_registerAll (hm : m.Hosting) (l : List (NameId × F)) :
    Ends (registerAll l) m (fun answers m' => Registered m l answers m') fun _ _ => False := by
  induction l generalizing m with
  | nil => exact ends_pure (.refl hm)
  | cons p rest ih =>
    refine ends_bind (registered_register hm p.1 p.2) fun a m₁ rg => ?_
    exact ends_bind (ih rg.hosting) fun _ _ rg' => ends_pure (rg.trans rg')

/-! ### Heaps without room -/

/-- Without room for an object, a registration fails and takes a place. -/
theorem register_of_full (hm : m.Reliable Whole) (full : m.heap.vacancies = 0)
    (hp : 0 < m.places) (name : NameId) (f : F) :
    register name f m = .error (.fault .outOfMemory) (m.enlist f) := by
  have alloc := ends_allocObject (m := m.enlist f)
    (v := .closure (.ofHost (UInt16.ofNat m.functionCount))) hm.wellFormed (by simp) (by simp)
  rw [register_of_place hp, bindHost]
  cases hs : Machine.alloc (.closure (.ofHost (UInt16.ofNat m.functionCount))) (m.enlist f) with
  | ok r m' =>
    have hroom : m.heap.vacancies = m'.heap.vacancies + 1 := (alloc.of_ok hs).2.2
    omega
  | error e m' =>
    obtain ⟨rfl, rfl, -⟩ := alloc.of_error hs
    exact bind_of_error hs

/-- Make objects that nothing refers to. -/
def fill : Nat → Action F Unit
  | 0 => pure ()
  | n + 1 => do
    let _ ← alloc (.int 0)
    fill n

theorem littered_fill (wf : m.heap.WellFormed) {n : Nat} (room : n ≤ m.heap.vacancies) :
    Ends (fill n) m (fun _ m' => Littered m m' ∧ m'.heap.vacancies = m.heap.vacancies - n)
      fun _ _ => False := by
  induction n generalizing m with
  | zero => exact ends_pure ⟨.refl wf, rfl⟩
  | succ n ih =>
    refine ends_bind ((ends_allocObject wf (by simp) (by simp)).imp (fun _ _ => id)
      fun _ _ h => by omega) fun _ m₁ h₁ => ?_
    obtain ⟨l, -, hroom⟩ := h₁
    refine (ih l.grows.wellFormed (by omega)).imp (fun _ _ h => ⟨l.trans h.1, ?_⟩) fun _ _ => id
    omega

/-- Every machine that can host a function comes to lose a place, when its heap is filled. -/
theorem loses_place (hm : m.Hosting) (hp : 0 < m.places) (name : NameId) (f : F) :
    ∃ m₁, fill m.heap.vacancies m = .ok () m₁ ∧ Littered m m₁
      ∧ register name f m₁ = .error (.fault .outOfMemory) (m₁.enlist f)
      ∧ (m₁.enlist f).places + 1 = m₁.places := by
  obtain ⟨_, m₁, hfill, l, hroom⟩ := (littered_fill hm.wellFormed le_rfl).exists_ok
  have hp₁ : 0 < m₁.places := by
    rw [l.same]
    exact hp
  exact ⟨m₁, hfill, l, register_of_full (l.reliable hm.toReliable) (by omega) hp₁ name f,
    places_enlist hp₁ f⟩

/-- The objects of a machine, in a heap that has room for them only. -/
def tightHeap : Heap := Heap.after coreObjects (Heap.make 86)

/-- A machine with this heap, and with a place for one function. -/
def tight : Machine Unit := blank { heapSize := 86, functionCapacity := 1 } 0 1 2 3 tightHeap

theorem coreObjects_tight : coreObjects (Heap.make 86)
    = .ok (0, 1, 2, 3) (.laidOut coreValues 0 coreSegments) :=
  coreObjects_laidOut (by decide +kernel)

theorem tightHeap_eq : tightHeap = .laidOut coreValues 0 coreSegments := by
  rw [tightHeap, Heap.after, coreObjects_tight]

theorem hosting_tight : tight.Hosting :=
  hosting_blank (s := { heapSize := 86, functionCapacity := 1 }) (by decide)
    (tightHeap_eq ▸ coreObjects_tight)

theorem register_tight : register Builtin.step.nameId () tight
    = .error (.fault .outOfMemory) (tight.enlist ()) :=
  register_of_full hosting_tight.toReliable (by rw [tight, tightHeap_eq]; decide +kernel)
    (by decide) _ _

theorem failed_register_tight : tight.Reliable Whole
    ∧ register Builtin.step.nameId () tight = .error (.fault .outOfMemory) (tight.enlist ())
    ∧ (tight.enlist ()).bound? = tight.bound? ∧ (tight.enlist ()).places + 1 = tight.places := by
  have hm := hosting_tight.toReliable
  obtain ⟨⟨hbound, -⟩, ⟨he, -⟩ | ⟨-, -, hplaces⟩, -⟩ := failed_register hm register_tight
  · cases he
  · exact ⟨hm, register_tight, hbound, hplaces⟩

/-- After a registration that has failed there is one function more on the list. A heap with room
does not help any more, although it would have helped before. -/
theorem failed_register_takes_place : tight.Reliable Whole
    ∧ register Builtin.step.nameId () tight = .error (.fault .outOfMemory) (tight.enlist ())
    ∧ tight.functions.size = 0 ∧ (tight.enlist ()).functions.size = 1
    ∧ register Builtin.step.nameId () { tight.enlist () with heap := smallHeap }
      = .error (.fault .functionList) { tight.enlist () with heap := smallHeap }
    ∧ answers (register Builtin.step.nameId ()) { tight with heap := smallHeap } = true :=
  ⟨hosting_tight.toReliable, register_tight, rfl, rfl, register_refused_iff.2 rfl,
    by rw [tight, tightHeap_eq, smallHeap_eq]; decide +kernel⟩

end Machine

end SwarmVm
