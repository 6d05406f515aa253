import SwarmVm.Machine.Neighbors
import SwarmVm.Proofs.Heap.Rolls
import SwarmVm.Proofs.Machine.Registration

/-!
# Tables keyed by robots

A derived table is made in one go. It starts with the functions of the table, which have strings as
keys; then robots are entered one after the other, with integers as keys. So it is a roll: its
entries are in the order in which they were put there, and those with integers are the robots.

What is entered for a robot is the object that another derived table has for it, or a new table with
what the sensors say of it.

## Main definitions

* `Heap.Lists`, `Heap.Describes` — a table with given fields, and one that describes a sighting
* `Machine.Fills` — a table is altered in a heap that grows
* `Sensors.Made` — the sensors, as the embedder leaves them
* `Machine.Viewable` — a view whose robots can be gone through
* `Machine.Offers` — what is entered for a robot

## Main results

* `Machine.ends_store` — an entry is put behind all others
* `Machine.ends_sightingTable`, `Machine.ends_methodTable` — the tables that are made
* `Machine.ends_keepKinship` — the robots of the asked kinship are entered, in order
-/

namespace SwarmVm

/-! ### Sensors -/

namespace Sensors

/-- The sensors, after any number of neighbors have been added, with resets in between. -/
inductive Made : Sensors → Prop
  | new (capacity : Nat) : Made { capacity }
  | reset {s : Sensors} : s.Made → s.reset.Made
  | add {s : Sensors} (seen : Sighting) : s.Made → (s.add seen).2.Made

variable {s : Sensors} {robot : RobotId}

theorem isSome_get?_iff :
    (s.get? robot).isSome = true ↔ robot ∈ s.sightings.map (·.robot) := by
  rw [get?, List.find?_isSome, List.mem_map]
  simp only [beq_iff_eq]

/-- A robot is listed once. -/
theorem Made.nodup (hs : s.Made) : (s.sightings.map (·.robot)).Nodup := by
  induction hs with
  | new => exact List.nodup_nil
  | reset => exact List.nodup_nil
  | @add s seen _ ih =>
    rw [Sensors.add]
    split
    · -- a sighting is replaced by one of the same robot
      have hrobots : ∀ old ∈ s.sightings,
          (if old.robot == seen.robot then seen else old).robot = old.robot := by
        intro old _
        split
        · next he => exact (beq_iff_eq.1 he).symm
        · rfl
      rw [List.map_map]
      exact (List.map_congr_left hrobots).symm ▸ ih
    · next hnew =>
      split
      · exact ih
      · rw [List.map_append, List.map_singleton, List.nodup_append_comm, List.singleton_append,
          List.nodup_cons]
        exact ⟨fun hmem => hnew (isSome_get?_iff.2 hmem), ih⟩

end Sensors

namespace Heap

variable {h h' : Heap} {t : Ref} {l : List (Value × Value)} {X : Set Ref}

/-! ### Tables with given fields -/

/-- The table has exactly these fields, in this order. -/
structure Lists (h : Heap) (t : Ref) (l : List (Value × Value)) : Prop extends h.Roll t where
  /-- The keys and what is under them. -/
  fields : (h.contents t).map (fun e => (e.1, h.value e.2)) = l

theorem Lists.map_fst (ls : h.Lists t l) : (h.contents t).map Prod.fst = l.map Prod.fst := by
  rw [← ls.fields, List.map_map]
  rfl

theorem Lists.isLabel (ls : h.Lists t l) (hl : ∀ p ∈ l, p.2.IsLabel) {e : Value × Ref}
    (he : e ∈ h.contents t) : (h.value e.2).IsLabel := by
  have hmem := List.mem_map_of_mem (f := fun e : Value × Ref => (e.1, h.value e.2)) he
  rw [ls.fields] at hmem
  exact hl _ hmem

/-- Fields that are strings and integers are not altered together with other tables. -/
theorem Lists.spared (ls : h.Lists t l) (hl : ∀ p ∈ l, p.2.IsLabel) (sp : Spares X h h')
    (hX : ∀ a ∈ X, h.IsTable a ∧ h'.IsTable a) (ht : t ∉ X) : h'.Lists t l := by
  obtain ⟨roll, hcontents⟩ := ls.toRoll.spared sp hX ht
  refine ⟨roll, ?_⟩
  rw [hcontents, ← ls.fields]
  refine List.map_congr_left fun e he => ?_
  have hlabel := ls.isLabel hl he
  rw [(sp e.2 (fun hmem => ne_of_isLabel hlabel (hX e.2 hmem).1 rfl)
    (isValid_of_isLabel hlabel)).value]

end Heap

/-- A sighting as a script sees it. -/
def Sighting.fields (s : Sighting) : List (Value × Value) :=
  [(.string Builtin.distance.nameId, .int (Int16.ofNat s.distance.toNat)),
    (.string Builtin.azimuth.nameId, .int (Int16.ofNat s.azimuth.toNat)),
    (.string Builtin.elevation.nameId, .int (Int16.ofNat s.elevation.toNat))]

/-- A table with the distance, the azimuth and the elevation of a sighting, and nothing else. -/
def Heap.Describes (h : Heap) (t : Ref) (s : Sighting) : Prop := h.Lists t s.fields

theorem Sighting.isLabel_of_mem_fields {s : Sighting} : ∀ p ∈ s.fields, p.2.IsLabel := by
  simp [fields, Value.IsLabel]

namespace Machine

open Heap (Spares Evolves)

variable {F : Type} {m m₁ m₂ m' : Machine F} {t r : Ref} {robot : RobotId} {x : Value}
  {l : List (Value × Value)} {view : View}

/-! ### Filling -/

/-- `m'` is `m` with a heap that has grown, and in which the table `t` may have been altered. -/
structure Fills (t : Ref) (m m' : Machine F) : Prop where
  /-- Nothing else is different, apart from the log. -/
  same : m' = { m with heap := m'.heap, strayed := m'.strayed, log := m'.log }
  /-- The heap is well formed. -/
  wellFormed : m'.heap.WellFormed
  /-- Free slots stay tidy. -/
  tidy : m.heap.Tidy → m'.heap.Tidy
  /-- No other object is altered. -/
  spares : Spares {t} m.heap m'.heap

theorem Expands.fills (ex : Expands m m') : Fills t m m' :=
  ⟨ex.same, ex.grows.wellFormed, ex.grows.tidy, ex.grows.spares.widen⟩

namespace Fills

theorem trans (f : Fills t m m₁) (f' : Fills t m₁ m') : Fills t m m' := by
  refine ⟨?_, f'.wellFormed, fun tidy => f'.tidy (f.tidy tidy), f.spares.trans f'.spares⟩
  rw [f'.same, f.same]

theorem sound (f : Fills t m m') (hm : m.Sound) : m'.Sound := by
  rw [f.same]
  exact ⟨f.wellFormed, f.tidy hm.tidy, hm.floor, hm.ceiling⟩

theorem sensors (f : Fills t m m') : m'.sensors = m.sensors := by rw [f.same]

theorem membership (f : Fills t m m') : m'.membership = m.membership := by rw [f.same]

end Fills

/-- A table that is being filled is still new. -/
theorem Drafts.fills (d : Drafts m t m₁) (f : Fills t m₁ m') (ht : m'.heap.IsTable t) :
    Drafts m t m' := by
  refine ⟨⟨?_, f.wellFormed, fun tidy => f.tidy (d.grows.tidy tidy),
    d.grows.spares.alter f.spares d.free⟩, d.free, ht⟩
  rw [f.same, d.same]

/-- A new table has no entries. -/
theorem ends_newRoll (hm : m.Sound) : Ends (onHeap Heap.tableNew) m
    (fun t m' => Drafts m t m' ∧ m'.heap.Roll t ∧ m'.heap.contents t = []) fun _ _ => True := by
  refine ((ends_tableNew hm.wellFormed).and
    (ends_onHeap_of (Heap.roll_tableNew hm.wellFormed))).imp ?_ fun _ _ _ => trivial
  rintro t _ ⟨⟨d, -⟩, h, hroll, rfl⟩
  exact ⟨d, hroll⟩

/-- **An entry is put behind all others** when its key is a label that is not there yet. -/
theorem ends_store (hm : m.Sound) (roll : m.heap.Roll t) (hx : x.IsLabel)
    (new : x ∉ (m.heap.contents t).map Prod.fst)
    (hr : m.heap.isValid r = true ∧ m.heap.kind r ≠ .nil) :
    Ends (do let key ← alloc x; tableSet t key r) m (fun _ m' => Fills t m m' ∧ m'.heap.Roll t
      ∧ m'.heap.contents t = m.heap.contents t ++ [(x, r)]) fun _ _ => True := by
  have hscalar : ∀ tv, x ≠ .table tv := by
    rintro tv rfl
    exact hx
  refine ends_bind ((ends_alloc hm.wellFormed hx.ne_nil hscalar).imp (fun _ _ => id)
    fun _ _ _ => trivial) fun key m₁ h₁ => ?_
  obtain ⟨ex, hkey⟩ := h₁
  have hkey : m₁.heap.value key = x := hkey
  have hm₁ := hm.expands ex
  obtain ⟨roll₁, hcontents⟩ := roll.grows ex.grows
  refine ends_bind (Q := fun _ m' => m' = m₁) ?_ fun _ m' he => ?_
  · rw [ends_iff, touch_eq hm₁.wellFormed fun _ => roll₁.isTable.1]
  subst he
  have hlabel : (m'.heap.value key).IsLabel := hkey ▸ hx
  have hnew : m'.heap.value key ∉ (m'.heap.contents t).map Prod.fst := by
    rw [hcontents]
    exact hkey ▸ new
  have ht : m'.heap.kind t = .table → m'.heap.isValid t = true := fun _ => roll₁.isTable.1
  have hr₁ : m'.heap.kind r ≠ .nil := by
    rw [(ex.unaltered hr.1).kind hr.1]
    exact hr.2
  refine (ends_onHeap_of ((roll₁.tableSet hm₁.wellFormed hm₁.tidy hlabel hnew hr₁).and
    (Heap.evolves_tableSet hm₁.wellFormed ht (Set.mem_univ (Heap.slotRef key))
      (Set.mem_univ (Heap.slotRef r))))).imp ?_ fun _ _ _ => trivial
  rintro _ _ ⟨h, ⟨⟨roll', sp, hstored⟩, ev⟩, rfl⟩
  refine ⟨ex.fills.trans ⟨rfl, ev.wellFormed, ev.tidy, sp⟩, roll', ?_⟩
  rw [hstored, hcontents, hkey]

/-! ### Sightings -/

/-- A number is stored behind the other fields. -/
theorem ends_setNumber (hm : m.Sound) (d : Drafts m t m₁) (ls : m₁.heap.Lists t l)
    (hl : ∀ p ∈ l, p.2.IsLabel) (name : Builtin)
    (new : Value.string name.nameId ∉ l.map Prod.fst) (n : Nat) : Ends (setNumber t name n) m₁
      (fun _ m' => Drafts m t m'
        ∧ m'.heap.Lists t (l ++ [(.string name.nameId, .int (Int16.ofNat n))]))
      fun _ _ => True := by
  refine ends_bind ((ends_alloc (hm.expands d.toExpands).wellFormed (by simp) (by simp)).imp
    (fun _ _ => id) fun _ _ _ => trivial) fun r m₂ h₂ => ?_
  obtain ⟨ex, hr⟩ := h₂
  have d₂ := d.expands ex
  have ls₂ := ls.spared hl ex.grows.spares (by simp) (Set.notMem_empty t)
  have hvalue : m₂.heap.value r = .int (Int16.ofNat n) := hr
  have hlabel : (m₂.heap.value r).IsLabel := by
    rw [hvalue]
    trivial
  have hnew : Value.string name.nameId ∉ (m₂.heap.contents t).map Prod.fst := by
    rw [ls₂.map_fst]
    exact new
  refine (ends_store (x := .string name.nameId) (hm.expands d₂.toExpands) ls₂.toRoll trivial hnew
    ⟨Heap.isValid_of_isLabel hlabel, Heap.kind_ne_nil_of_isLabel hlabel⟩).imp ?_ fun _ _ => id
  rintro _ m' ⟨f, roll', hcontents⟩
  have value : ∀ {w}, (m₂.heap.value w).IsLabel → m'.heap.value w = m₂.heap.value w := fun hw =>
    (f.spares.unaltered_of_ne (Heap.ne_of_isLabel hw d₂.isTable) (Heap.isValid_of_isLabel hw)).value
  refine ⟨d₂.fills f roll'.isTable, roll', ?_⟩
  have hold : (m₂.heap.contents t).map (fun e => (e.1, m'.heap.value e.2)) = l := by
    rw [← ls₂.fields]
    refine List.map_congr_left fun e he => ?_
    rw [value (ls₂.isLabel hl he)]
  rw [hcontents, List.map_append, hold, List.map_singleton, value hlabel, hvalue]

theorem ends_sightingTable (hm : m.Sound) (s : Sighting) : Ends (sightingTable s) m
    (fun r m' => Drafts m r m' ∧ m'.heap.Describes r s) fun _ _ => True := by
  refine ends_bind (ends_newRoll hm) fun t m₁ h₁ => ?_
  obtain ⟨d₁, roll, hnil⟩ := h₁
  have ls₁ : m₁.heap.Lists t [] := ⟨roll, by rw [hnil]; rfl⟩
  refine ends_bind (ends_setNumber hm d₁ ls₁ (by simp) .distance (by simp) s.distance.toNat)
    fun _ m₂ h₂ => ?_
  obtain ⟨d₂, ls₂⟩ := h₂
  refine ends_bind (ends_setNumber hm d₂ ls₂ (by simp [Value.IsLabel]) .azimuth (by simp; decide)
    s.azimuth.toNat) fun _ m₃ h₃ => ?_
  obtain ⟨d₃, ls₃⟩ := h₃
  refine ends_bind (ends_setNumber hm d₃ ls₃ (by simp [Value.IsLabel]) .elevation (by simp; decide)
    s.elevation.toNat) fun _ m₄ h₄ => ends_pure h₄

/-! ### Functions of a table -/

/-- The label of a function of a table. -/
def label (method : Builtin × Primitive) : Value := .string method.1.nameId

/-- Functions are put behind what is there, each under its name. -/
theorem ends_addMethods (hm : m.Sound) (d : Drafts m t m₁) (roll : m₁.heap.Roll t)
    {methods : List (Builtin × Primitive)}
    (nodup : ((m₁.heap.contents t).map Prod.fst ++ methods.map label).Nodup) :
    Ends (addMethods t methods) m₁ (fun _ m' => Drafts m t m' ∧ m'.heap.Roll t
      ∧ (m'.heap.contents t).map Prod.fst
        = (m₁.heap.contents t).map Prod.fst ++ methods.map label) fun _ _ => True := by
  induction methods generalizing m₁ with
  | nil => exact ends_pure ⟨d, roll, by simp⟩
  | cons method rest ih =>
    refine ends_bind ((ends_alloc (hm.expands d.toExpands).wellFormed (by simp) (by simp)).imp
      (fun _ _ => id) fun _ _ _ => trivial) fun function m₂ h₂ => ?_
    obtain ⟨ex, hfunction⟩ := h₂
    have d₂ := d.expands ex
    refine ends_bind (ends_bindClosure (hm.expands d₂.toExpands) d₂.isTable hfunction)
      fun r m₃ h₃ => ?_
    obtain ⟨record, b⟩ := h₃
    have d₃ := d₂.expands b.toExpands
    obtain ⟨roll₃, hcontents⟩ := roll.grows (ex.trans b.toExpands).grows
    have hr := Heap.kind_of_value b.value (by simp)
    have hnil : m₃.heap.kind r ≠ .nil := by simp [hr.2, Value.kind]
    have hnodup : (((m₁.heap.contents t).map Prod.fst ++ [label method])
        ++ rest.map label).Nodup := by simpa using nodup
    have hnew : label method ∉ (m₃.heap.contents t).map Prod.fst := by
      rw [hcontents]
      exact fun hmem => (List.nodup_append.1 hnodup.of_append_left).2.2 _ hmem _
        (List.mem_singleton_self _) rfl
    refine ends_bind (ends_store (x := label method) (hm.expands d₃.toExpands) roll₃ trivial hnew
      ⟨hr.1, hnil⟩) fun _ m₄ h₄ => ?_
    obtain ⟨f, roll₄, hstored⟩ := h₄
    have hlabels : (m₄.heap.contents t).map Prod.fst
        = (m₁.heap.contents t).map Prod.fst ++ [label method] := by
      rw [hstored, hcontents, List.map_append, List.map_singleton]
    rw [← hlabels] at hnodup
    refine (ih (d₃.fills f roll₄.isTable) roll₄ hnodup).imp (fun _ m' h' => ?_) fun _ _ => id
    refine ⟨h'.1, h'.2.1, ?_⟩
    rw [h'.2.2, hlabels, List.append_assoc, List.singleton_append, List.map_cons]

/-- A table of functions has one entry for each of them, in order. -/
theorem ends_methodTable (hm : m.Sound) {methods : List (Builtin × Primitive)}
    (nodup : (methods.map label).Nodup) : Ends (methodTable methods) m
      (fun t m' => Drafts m t m' ∧ m'.heap.Roll t
        ∧ (m'.heap.contents t).map Prod.fst = methods.map label) fun _ _ => True := by
  refine ends_bind (ends_newRoll hm) fun t m₁ h₁ => ?_
  obtain ⟨d₁, roll₁, hempty⟩ := h₁
  refine ends_bind (ends_addMethods hm d₁ roll₁ (by rw [hempty]; exact nodup)) fun _ m₂ h₂ =>
    ends_pure ⟨h₂.1, h₂.2.1, ?_⟩
  rw [h₂.2.2, hempty]
  rfl

/-! ### Robots -/

/-- The robots of a derived table, read off its contents. -/
theorem viewEntries_derived (m : Machine F) (t : Ref) : m.viewEntries (.derived t)
    = (m.heap.contents t).filterMap fun e => e.1.asInt?.map fun i => (i.toUInt16, some e.2) := by
  rw [viewEntries, Heap.contents, List.filterMap_map]
  rfl

/-- The robots of a view. -/
def robots (m : Machine F) (view : View) : List RobotId := (m.viewEntries view).map Prod.fst

theorem mem_robots_derived (m : Machine F) (t : Ref) : robot ∈ m.robots (.derived t)
    ↔ Value.int robot.toInt16 ∈ (m.heap.contents t).map Prod.fst := by
  rw [robots, viewEntries_derived, List.mem_map, List.mem_map]
  constructor
  · rintro ⟨p, hp, rfl⟩
    obtain ⟨e, he, hpair⟩ := List.mem_filterMap.1 hp
    obtain ⟨i, hi, rfl⟩ := Option.map_eq_some_iff.1 hpair
    refine ⟨e, he, ?_⟩
    rw [asInt?_eq_some hi, Int16.toInt16_toUInt16]
  · rintro ⟨e, he, hkey⟩
    refine ⟨(robot, some e.2), List.mem_filterMap.2 ⟨e, he, ?_⟩, rfl⟩
    rw [hkey]
    simp [Value.asInt?]

/-- A robot is entered behind the others. -/
theorem ends_setRobotEntry (hm : m.Sound) (roll : m.heap.Roll t)
    (new : robot ∉ m.robots (.derived t)) (hr : m.heap.isValid r = true ∧ m.heap.kind r ≠ .nil) :
    Ends (setRobotEntry t robot r) m (fun _ m' => Fills t m m' ∧ m'.heap.Roll t
      ∧ m'.viewEntries (.derived t) = m.viewEntries (.derived t) ++ [(robot, some r)])
      fun _ _ => True := by
  refine (ends_store (x := .int robot.toInt16) hm roll trivial
    (fun hmem => new ((m.mem_robots_derived t).2 hmem)) hr).imp ?_ fun _ _ => id
  rintro _ m' ⟨f, roll', hcontents⟩
  refine ⟨f, roll', ?_⟩
  rw [viewEntries_derived, viewEntries_derived, hcontents, List.filterMap_append]
  refine congrArg _ ?_
  simp [Value.asInt?]

/-! ### Views -/

/-- The robots of the view can be gone through. For a table this holds however it was made, as long
as its keys and values are there: see `Heap.TableKept.furnished`. -/
def Viewable (m : Machine F) : View → Prop
  | .sensed => m.sensors.Made
  | .derived d => m.heap.Furnished d

/-- What there must be for an entry of a view: the object under it, or the robot in sight. -/
def Present (m : Machine F) : RobotId × Option Ref → Prop
  | (_, some r) => m.heap.isValid r = true ∧ m.heap.kind r ≠ .nil
  | (robot, none) => (m.sensors.get? robot).isSome = true

theorem Present.fills {e : RobotId × Option Ref} (hp : m.Present e) (f : Fills t m m')
    (ht' : m'.heap.IsTable t) : m'.Present e := by
  obtain ⟨robot, stored⟩ := e
  cases stored with
  | some r => exact f.spares.isValid_and_kind (fun a ha => ha ▸ ht') hp
  | none =>
    rw [Present, f.sensors]
    exact hp

theorem Viewable.present (hv : m.Viewable view) : ∀ e ∈ m.viewEntries view, m.Present e := by
  intro e he
  cases view with
  | sensed =>
    obtain ⟨s, hs, rfl⟩ := List.mem_map.1 he
    exact Sensors.isSome_get?_iff.2 (List.mem_map_of_mem hs)
  | derived d =>
    obtain ⟨p, hp, hpair⟩ := List.mem_filterMap.1 he
    obtain ⟨i, -, rfl⟩ := Option.map_eq_some_iff.1 hpair
    exact Heap.Furnished.values hv p hp

/-- **No robot is twice in a view.** -/
theorem Viewable.nodup (hv : m.Viewable view) : (m.robots view).Nodup := by
  cases view with
  | sensed =>
    have hrobots : m.robots .sensed = m.sensors.sightings.map (·.robot) := by
      rw [robots, viewEntries, List.map_map]
      rfl
    rw [hrobots]
    exact Sensors.Made.nodup hv
  | derived d =>
    rw [robots, viewEntries, List.nodup_iff_pairwise_ne, List.pairwise_map]
    refine (Heap.Furnished.toMapped hv).distinct.filterMap _ ?_
    rintro e e' hn _ he _ he' heq
    obtain ⟨i, hi, rfl⟩ := Option.map_eq_some_iff.1 he
    obtain ⟨j, hj, rfl⟩ := Option.map_eq_some_iff.1 he'
    -- the keys of equal robots are the same integer
    have hki : m.heap.value e.1 = .int i := asInt?_eq_some hi
    have hkj : m.heap.value e'.1 = .int j := asInt?_eq_some hj
    have hij : i = j := by
      rw [← Int16.toInt16_toUInt16 i, show i.toUInt16 = j.toUInt16 from heq,
        Int16.toInt16_toUInt16]
    refine hn ((Heap.alike_iff_of_isLabel ?_ ?_).2 (by rw [hki, hkj, hij]))
    · rw [hki]; trivial
    · rw [hkj]; trivial

/-- The entries of a view are the same in a heap that has grown. -/
theorem Viewable.expands (hv : m.Viewable view) (ex : Expands m m') :
    m'.Viewable view ∧ m'.viewEntries view = m.viewEntries view := by
  cases view with
  | sensed =>
    have hsensors : m'.sensors = m.sensors := by rw [ex.same]
    rw [Viewable, viewEntries, viewEntries, hsensors]
    exact ⟨hv, rfl⟩
  | derived d =>
    have ft : m.heap.Furnished d := hv
    refine ⟨ft.grows ex.grows, ?_⟩
    rw [viewEntries, viewEntries, (ex.unaltered ft.isTable.1).tableEntries]
    refine List.filterMap_congr fun e he => ?_
    have hkey : m'.value e.1 = m.value e.1 := (ex.unaltered (ft.keys e he).1).value
    exact congrArg (fun v : Value => v.asInt?.map fun i => (i.toUInt16, some e.2)) hkey

/-- What is entered for a robot: the object that was stored, or a new table that describes the robot
as it is seen. -/
def Offers (m : Machine F) (robot : RobotId) : Option Ref → Heap → Ref → Prop
  | some stored, _, r => r = stored
  | none, h, r => m.heap.isValid r = false
    ∧ ∃ s, m.sensors.get? robot = some s ∧ h.Describes r s

/-- It is still offered when more has been entered. -/
theorem Offers.fills {stored : Option Ref} (ho : m.Offers robot stored m₁.heap r)
    (f : Fills t m₁ m') (ht : m.heap.isValid t = true) (ht₁ : m₁.heap.IsTable t)
    (ht' : m'.heap.IsTable t) : m.Offers robot stored m'.heap r := by
  cases stored with
  | some stored => exact ho
  | none =>
    obtain ⟨free, s, hs, describes⟩ := ho
    refine ⟨free, s, hs, describes.spared Sighting.isLabel_of_mem_fields f.spares ?_ ?_⟩
    · rintro a rfl
      exact ⟨ht₁, ht'⟩
    · rintro rfl
      exact absurd ht (by simp [free])

/-- What is offered after something has been entered was offered before. -/
theorem Offers.of_fills {stored : Option Ref} {h : Heap} (ho : m₁.Offers robot stored h r)
    (f : Fills t m m₁) (ht₁ : m₁.heap.IsTable t) : m.Offers robot stored h r := by
  cases stored with
  | some stored => exact ho
  | none =>
    obtain ⟨free, s, hs, describes⟩ := ho
    refine ⟨?_, s, f.sensors ▸ hs, describes⟩
    by_contra hv
    have hv : m.heap.isValid r = true := by simpa using hv
    by_cases ne : r = t
    · exact absurd ht₁.1 (by simp [← ne, free])
    · exact absurd (f.spares.unaltered_of_ne ne hv).isValid (by simp [free])

theorem ends_viewValue (hm : m.Sound) {stored : Option Ref}
    (hp : m.Present (robot, stored)) : Ends (viewValue robot stored) m
      (fun r m' => Expands m m' ∧ (m'.heap.isValid r = true ∧ m'.heap.kind r ≠ .nil)
        ∧ m.Offers robot stored m'.heap r) fun _ _ => True := by
  cases stored with
  | some stored => exact ends_pure ⟨.refl hm.wellFormed, hp, rfl⟩
  | none =>
    obtain ⟨s, hs⟩ := Option.isSome_iff_exists.1 hp
    refine ends_get_bind ?_
    rw [hs]
    refine (ends_sightingTable hm s).imp (fun r m' h => ?_) fun _ _ => id
    obtain ⟨d, describes⟩ := h
    exact ⟨d.toExpands, ⟨d.isTable.1, by simp [d.isTable.2]⟩, d.free, s, hs, describes⟩

/-- **The robots of the asked kinship are entered, in order.** -/
theorem ends_keepKinship (kin : Bool) (hm : m.Sound) (roll : m.heap.Roll t)
    {entries : List (RobotId × Option Ref)} (present : ∀ e ∈ entries, m.Present e)
    (nodup : (m.robots (.derived t) ++ entries.map Prod.fst).Nodup) :
    Ends (keepKinship kin t entries) m (fun _ m' => Fills t m m' ∧ m'.heap.Roll t ∧ ∃ kept,
      m'.viewEntries (.derived t) = m.viewEntries (.derived t) ++ kept
      ∧ List.Forall₂ (fun e e' => ∃ r, e' = (e.1, some r) ∧ m.Offers e.1 e.2 m'.heap r)
        (entries.filter fun e => m.membership.isKin e.1 == kin) kept) fun _ _ => True := by
  induction entries generalizing m with
  | nil =>
    exact ends_pure ⟨(Expands.refl hm.wellFormed).fills, roll, [], by simp, by simp⟩
  | cons entry rest ih =>
    obtain ⟨robot, stored⟩ := entry
    rw [List.forall_mem_cons] at present
    refine ends_get_bind ?_
    by_cases hkin : m.membership.isKin robot == kin
    · rw [if_pos hkin, List.filter_cons_of_pos (by exact hkin)]
      refine ends_bind (ends_viewValue hm present.1) fun r m₁ h₁ => ?_
      obtain ⟨ex, hr, offers⟩ := h₁
      obtain ⟨roll₁, hcontents⟩ := roll.grows ex.grows
      have hentries : m₁.viewEntries (.derived t) = m.viewEntries (.derived t) := by
        rw [viewEntries_derived, viewEntries_derived, hcontents]
      rw [List.map_cons, List.append_cons] at nodup
      have hnew : robot ∉ m₁.robots (.derived t) := by
        rw [robots, hentries]
        exact fun hmem => (List.nodup_append.1 nodup.of_append_left).2.2 _ hmem _
          (List.mem_singleton_self _) rfl
      refine ends_bind (ends_setRobotEntry (hm.expands ex) roll₁ hnew hr) fun _ m₂ h₂ => ?_
      obtain ⟨f, roll₂, hstored⟩ := h₂
      have f₂ : Fills t m m₂ := ex.fills.trans f
      have offers₂ := offers.fills f roll.isTable.1 roll₁.isTable roll₂.isTable
      have hrobots : m₂.robots (.derived t) = m.robots (.derived t) ++ [robot] := by
        rw [robots, hstored, hentries, List.map_append, List.map_singleton, robots]
      rw [← hrobots] at nodup
      refine (ih (f₂.sound hm) roll₂ (fun e he => (present.2 e he).fills f₂ roll₂.isTable)
        nodup).imp ?_ fun _ _ => id
      rintro _ m' ⟨f', roll', kept, hkept, matched⟩
      rw [f₂.membership] at matched
      refine ⟨f₂.trans f', roll', (robot, some r) :: kept, ?_, .cons ⟨r, rfl, ?_⟩ (matched.imp ?_)⟩
      · rw [hkept, hstored, hentries, List.append_assoc, List.singleton_append]
      · exact offers₂.fills f' roll.isTable.1 roll₂.isTable roll'.isTable
      · rintro e _ ⟨r', rfl, offers'⟩
        exact ⟨r', rfl, offers'.of_fills f₂ roll₂.isTable⟩
    · rw [if_neg hkin, List.filter_cons_of_neg (by exact hkin)]
      rw [List.map_cons] at nodup
      exact ih hm roll present.2 (nodup.sublist ((List.sublist_cons_self _ _).append_left _))

end Machine

end SwarmVm
