import SwarmVm.Proofs.Machine.Returns
import SwarmVm.Proofs.Neighbors.Room
import SwarmVm.Proofs.Neighbors.Rosters

/-!
# Kin and the others

The functions `kin` and `nonkin` go through the robots of a view and enter some of them in a new
derived table: those that are known to share a swarm with this robot, or those that are not. So the
two results divide the view. What is entered is what the view has for a robot, which for the sensors
is a new table with what they say of it; and this is what `get` answers on the result.

The sensors list the robots in the order in which they were seen. A derived table keeps its robots
behind its functions, in the segments of a chain. The results keep the order of either.

The results are looked at later, in another call. Nothing is assumed of the machine by then, except
that the table and its keys are as they were, which holds as long as nothing is stored in the table
and something refers to it.

## Main definitions

* `Machine.select` — a call, up to its return
* `Machine.Shows` — what a view has for a robot
* `Machine.Selects` — what a call makes
* `Machine.Counts`, `Machine.Finds` — what `count` and `get` answer

## Main results

* `Machine.ends_neighborsKinship` — one call that succeeds
* `Machine.exists_gives_neighborsKinship` — with enough room it does
* `Machine.ends_neighborsCount`, `Machine.finds_of_mem` — looking at the result
* `Machine.kin_and_nonkin_divide_view` — the two calls together
-/

namespace SwarmVm

namespace Heap

variable {h h' : Heap} {t : Ref}

/-- A table that is kept has the contents that it had. -/
theorem KeepsTable.contents (kt : KeepsTable h h' t) : h'.contents t = h.contents t := by
  rw [Heap.contents, kt.table.tableEntries]
  refine List.map_congr_left fun e he => ?_
  obtain ⟨q, hq, hpair⟩ := mem_tableEntries_iff.1 he
  rw [kt.keys q hq e.1 (key?_of_pairAt? hpair)]

end Heap

namespace Machine

open Heap (Spares KeepsTable objectSize tableCost)

variable {F : Type} {m m₁ m' n n' p : Machine F} {t u r key : Ref} {robot : RobotId} {view : View}
  {c : Site} {kin : Bool} {i : Int16}

/-! ### One call -/

/-- A call of `kin` or `nonkin`, up to its return. -/
def select (kin : Bool) (view : View) : Action F Ref := do
  let t ← pushDerived
  keepKinship kin t (← entriesOf view)
  return t

theorem neighborsKinship_eq (kin : Bool) (view : View) :
    (neighborsKinship kin view : Action F Unit)
      = requireArgs 0 >>= fun _ => select kin view >>= fun _ => ret1 := by
  simp only [neighborsKinship, select, bind_assoc, pure_bind]

/-- `m'` is `m` with a new object on top of the stack. -/
structure Pushes (m : Machine F) (t : Ref) (m' : Machine F) : Prop where
  /-- Nothing else is different, apart from the log. -/
  same : m' = { m with heap := m'.heap, stack := m'.stack, strayed := m'.strayed, log := m'.log }
  /-- The machine is sound. -/
  sound : m'.Sound
  /-- The object is new, -/
  fresh : m.heap.isValid t = false
  /-- and no other object is altered. -/
  spares : Spares ∅ m.heap m'.heap
  /-- It is on top of the stack. -/
  operands : m'.stack = { m.stack with slots := (m.stack.slots.toList ++ [t]).toArray }

namespace Pushes

theorem hasOperands (p : Pushes m t m') (hm : m.Sound) :
    HasOperands m' m.stack.slots.toList [t] := by
  refine ⟨by rw [p.operands], ?_⟩
  rw [p.operands]
  exact hm.floor

/-- Without the object on the stack, the heap has grown. -/
theorem expands (p : Pushes m t m') : Expands m (m'.withSlots m.stack.slots.toList) := by
  refine ⟨?_, p.sound.wellFormed, fun _ => p.sound.tidy, p.spares⟩
  rw [withSlots, p.operands, p.same]

theorem fills (p : Pushes m t m₁) (f : Fills t m₁ m') : Pushes m t m' := by
  refine ⟨?_, f.sound p.sound, p.fresh, p.spares.alter f.spares p.fresh, ?_⟩
  · rw [f.same, p.same]
  · rw [f.same, p.operands]

end Pushes

theorem viewEntries_withSlots (m : Machine F) (l : List Ref) (view : View) :
    (m.withSlots l).viewEntries view = m.viewEntries view := by
  cases view <;> rfl

theorem viewable_withSlots (m : Machine F) (l : List Ref) (view : View) :
    (m.withSlots l).Viewable view ↔ m.Viewable view := by
  cases view <;> rfl

/-- A view has the robots that it had. -/
theorem Pushes.viewable (p : Pushes m t m') (hv : m.Viewable view) :
    m'.Viewable view ∧ m'.viewEntries view = m.viewEntries view := by
  have h := hv.expands p.expands
  rwa [viewable_withSlots, viewEntries_withSlots] at h

/-- A new derived table has its functions, and no robots. -/
theorem ends_pushDerived (hm : m.Sound) : Ends pushDerived m
    (fun t m' => Pushes m t m' ∧ m'.heap.Roll t ∧ m'.viewEntries (.derived t) = [])
    fun _ _ => True := by
  refine ends_bind (ends_methodTable hm (by decide)) fun t m₁ h₁ => ?_
  obtain ⟨d, roll, hlabels⟩ := h₁
  refine ends_bind (ends_push_back t) fun _ m₂ h₂ => ends_pure ?_
  obtain ⟨rfl, room⟩ := h₂
  have hstack : m₁.stack = m.stack := by rw [d.same]
  have hm₁ := hm.expands d.toExpands
  refine ⟨⟨?_, sound_withSlots hm₁ ?_ ?_, d.free, d.grows.spares, ?_⟩, roll, ?_⟩
  · rw [d.same]
    rfl
  · rw [List.length_append]
    exact hm₁.floor.trans (Nat.le_add_right _ _)
  · rw [List.length_append]
    exact room
  · rw [withSlots, hstack]
  · -- the names of functions are no integers
    rw [viewEntries_withSlots, viewEntries_derived]
    refine List.filterMap_eq_nil_iff.2 fun e he => ?_
    have hmem : e.1 ∈ derivedMethods.map label := hlabels ▸ List.mem_map_of_mem he
    obtain ⟨method, -, hname⟩ := List.mem_map.1 hmem
    rw [← hname]
    rfl

/-- The entries of a view are looked up without a change. -/
theorem entriesOf_eq (hm : m.Sound) (view : View) :
    entriesOf view m = .ok (m.viewEntries view) m := by
  cases view with
  | sensed => rfl
  | derived d =>
    have hbind : entriesOf (.derived d) m = (touch d >>= fun _ => do
      return (← get).viewEntries (.derived d)) m := rfl
    rw [hbind, bind_of_ok (touch_of_tidy hm.wellFormed hm.tidy d)]
    rfl

/-- What a view of `m` has for a robot, as it is in the heap `h`. For a robot that is sensed, this
is a new table that describes it. In a derived table it is an object, which has not been altered,
unless it is the activation record of the call. -/
def Shows (m : Machine F) : View → RobotId → Heap → Ref → Prop
  | .sensed, robot, h, r =>
    m.heap.isValid r = false ∧ ∃ s ∈ m.sensors.sightings, s.robot = robot ∧ h.Describes r s
  | .derived d, robot, h, r =>
    (robot, some r) ∈ m.viewEntries (.derived d) ∧ (r ≠ m.locals → m.heap.Unaltered h r)

/-- The table `t` of `m'` is what `m` has selected from a view, for their kinship. -/
structure Selects (kin : Bool) (view : View) (m : Machine F) (t : Ref) (m' : Machine F) :
    Prop where
  /-- The table is new, -/
  fresh : m.heap.isValid t = false
  /-- and has been filled in order. -/
  roll : m'.heap.Roll t
  /-- It has the robots of the asked kinship, in the order of the view, -/
  robots : m'.robots (.derived t)
    = (m.robots view).filter fun robot => m.membership.isKin robot == kin
  /-- with what the view has for them. -/
  shows : ∀ e ∈ m'.viewEntries (.derived t), ∃ r, e.2 = some r ∧ m.Shows view e.1 m'.heap r

theorem exists_of_forall₂ {α β : Type} {R : α → β → Prop} {l : List α} {l' : List β}
    (matched : List.Forall₂ R l l') : ∀ b ∈ l', ∃ a ∈ l, R a b := by
  induction matched with
  | nil => simp
  | cons hab _ ih =>
    rw [List.forall_mem_cons]
    refine ⟨⟨_, List.mem_cons_self, hab⟩, fun b hb => ?_⟩
    obtain ⟨a, ha, hab⟩ := ih b hb
    exact ⟨a, List.mem_cons_of_mem _ ha, hab⟩

theorem map_eq_of_forall₂ {α β γ : Type} {R : α → β → Prop} {f : α → γ} {g : β → γ} {l : List α}
    {l' : List β} (matched : List.Forall₂ R l l') (same : ∀ a b, R a b → f a = g b) :
    l.map f = l'.map g := by
  induction matched with
  | nil => rfl
  | cons hab _ ih => rw [List.map_cons, List.map_cons, same _ _ hab, ih]

/-- What is offered for a robot of the view is what the view has for it. -/
theorem Offers.shows {h : Heap} {stored : Option Ref} (ho : m₁.Offers robot stored h r)
    (he : (robot, stored) ∈ m.viewEntries view) (hv : m.Viewable view) (p : Pushes m t m₁)
    (sp : Spares ∅ m.heap h) : m.Shows view robot h r := by
  cases view with
  | sensed =>
    obtain ⟨seen, -, hpair⟩ := List.mem_map.1 he
    obtain ⟨-, rfl⟩ := Prod.mk.inj hpair
    obtain ⟨free, s, hs, describes⟩ := ho
    rw [show m₁.sensors = m.sensors by rw [p.same]] at hs
    have hrobot := List.find?_some hs
    refine ⟨?_, s, List.mem_of_find?_eq_some hs, beq_iff_eq.1 hrobot, describes⟩
    -- what is there in `m` is still there in `m₁`
    by_contra hvalid
    have u := p.spares.unaltered (Bool.eq_true_of_not_eq_false hvalid)
    exact absurd u.isValid (by simp [free])
  | derived d =>
    obtain ⟨q, -, hq⟩ := List.mem_filterMap.1 he
    obtain ⟨i, -, hpair⟩ := Option.map_eq_some_iff.1 hq
    obtain ⟨-, rfl⟩ := Prod.mk.inj hpair
    obtain rfl : r = q.2 := ho
    exact ⟨he, fun _ => sp.unaltered (hv.present _ he).1⟩

/-- **The selection**, while the call has not returned yet. -/
theorem ends_select (hm : m.Sound) (hv : m.Viewable view) (kin : Bool) :
    Ends (select kin view) m (fun t m' => Pushes m t m' ∧ Selects kin view m t m')
      fun _ _ => True := by
  refine ends_bind (ends_pushDerived hm) fun t m₁ h₁ => ?_
  obtain ⟨p, roll, empty⟩ := h₁
  obtain ⟨hv₁, hentries⟩ := p.viewable hv
  have hkinship : m₁.membership = m.membership := by rw [p.same]
  refine ends_bind (Q := fun entries m' => entries = m.viewEntries view ∧ m' = m₁) ?_
    fun entries m₁ h => ?_
  · rw [ends_iff, entriesOf_eq p.sound view]
    exact ⟨hentries, rfl⟩
  obtain ⟨rfl, rfl⟩ := h
  rw [← hentries]
  have hnodup : (m₁.robots (.derived t) ++ (m₁.viewEntries view).map Prod.fst).Nodup := by
    rw [robots, empty]
    exact hv₁.nodup
  refine ends_bind (ends_keepKinship kin p.sound roll hv₁.present hnodup) fun _ m' h' =>
    ends_pure ?_
  obtain ⟨f, roll', kept, hkept, matched⟩ := h'
  rw [empty, List.nil_append] at hkept
  rw [hentries, hkinship] at matched
  have p' := p.fills f
  refine ⟨p', p'.fresh, roll', ?_, fun e he => ?_⟩
  · have firsts := map_eq_of_forall₂ (f := Prod.fst) (g := Prod.fst) matched
      (by rintro e _ ⟨r, rfl, -⟩; rfl)
    rw [robots, hkept, ← firsts, robots, List.filter_map]
    rfl
  · obtain ⟨e₀, he₀, r, rfl, offers⟩ := exists_of_forall₂ matched e (hkept ▸ he)
    exact ⟨r, rfl, offers.shows (List.mem_of_mem_filter he₀) hv p p'.spares⟩

/-- What has been selected stays when the activation record is cleared. -/
theorem Selects.cleared (sel : Selects kin view m t m₁) (wf : m₁.heap.WellFormed)
    (hl : m.heap.IsTable m.locals) (hl₁ : m₁.heap.IsTable m.locals)
    (hheap : m'.heap = m₁.heap.arrayClear m.locals) : Selects kin view m t m' := by
  have ev : Heap.Evolves ∅ ∅ m₁.heap (m₁.heap.arrayClear m.locals) :=
    Heap.evolves_arrayClear wf hl₁
  have sp := Heap.spares_arrayClear wf hl₁.1
  rw [← hheap] at ev sp
  have hl' := ev.isTable (Set.notMem_empty _) hl₁
  have tables : ∀ a ∈ ({m.locals} : Set Ref), m₁.heap.IsTable a ∧ m'.heap.IsTable a := by
    rintro a rfl
    exact ⟨hl₁, hl'⟩
  have ne : ∀ {r}, m.heap.isValid r = false → r ≠ m.locals := by
    rintro r free rfl
    exact absurd hl.1 (by simp [free])
  obtain ⟨roll', hcontents⟩ := sel.roll.spared sp tables (ne sel.fresh)
  have hentries : m'.viewEntries (.derived t) = m₁.viewEntries (.derived t) := by
    rw [viewEntries_derived, viewEntries_derived, hcontents]
  refine ⟨sel.fresh, roll', ?_, fun e he => ?_⟩
  · rw [← sel.robots, Machine.robots, Machine.robots, hentries]
  · obtain ⟨r, hr, shows⟩ := sel.shows e (hentries ▸ he)
    refine ⟨r, hr, ?_⟩
    cases view with
    | sensed =>
      obtain ⟨free, s, hs, hrobot, describes⟩ := shows
      exact ⟨free, s, hs, hrobot,
        describes.spared Sighting.isLabel_of_mem_fields sp tables (ne free)⟩
    | derived d =>
      obtain ⟨hmem, stays⟩ := shows
      exact ⟨hmem, fun hne => (stays hne).trans (sp.unaltered_of_ne hne (stays hne).isValid)⟩

/-- The result is a view again, so that the same can be asked of it. -/
theorem Selects.viewable (sel : Selects kin view m t m') : m'.Viewable (.derived t) :=
  sel.roll.toFurnished

/-- **One call.** A call of `kin` or `nonkin` that succeeds returns a new table, in which it has
entered the robots of the view that it has selected. -/
theorem ends_neighborsKinship (hm : m.Serving) (hv : m.Viewable view) (kin : Bool) :
    Ends (neighborsKinship kin view) m (fun _ m' => ∃ t, m'.stack.slots.back? = some t
      ∧ Selects kin view m t m') fun _ _ => True := by
  rw [neighborsKinship_eq]
  refine ends_bind (ends_requireArgs hm.wellFormed hm.tidy 0) fun _ m he => ?_
  subst he
  refine ends_bind (ends_select hm.toSound hv kin) fun t m₁ h₁ => ?_
  obtain ⟨p, sel⟩ := h₁
  have hlocals : m₁.locals = m.locals := by rw [p.same]
  have hl₁ := (p.spares.unaltered hm.locals.1).isTable hm.locals
  refine (ends_ret1 (l := []) p.sound.wellFormed (hlocals ▸ hl₁.1)
    (p.hasOperands hm.toSound)).imp (fun _ m' hd => ⟨t, hd.top, ?_⟩) fun _ _ => id
  exact sel.cleared p.sound.wellFormed hm.locals hl₁ (by rw [hd.same, hlocals])

/-- The bytes for a derived table with so many robots. -/
def kinshipCost (robots : Nat) : Nat :=
  tableCost + derivedMethods.length * methodCost + robots * robotCost

/-- The selection succeeds if there is room for all robots of the view. -/
theorem exists_select (hm : m.Sound) (hv : m.Viewable view)
    (enough : kinshipCost (m.viewEntries view).length ≤ m.room)
    (deep : m.stack.slots.toList.length < m.stack.capacity) (kin : Bool) :
    ∃ t m', select kin view m = .ok t m' := by
  rw [kinshipCost] at enough
  obtain ⟨t, m₁, htable, hroom⟩ := (spends_methodTable hm derivedMethods).exists_ok (by omega)
  obtain ⟨d, -, -⟩ := (ends_methodTable hm (by decide)).of_ok htable
  have hstack : m₁.stack = m.stack := by rw [d.same]
  have hderived : pushDerived m = .ok t (m₁.withSlots (m.stack.slots.toList ++ [t])) := by
    rw [pushDerived, bind_of_ok htable, bind_of_ok (push_eq (by rw [hstack]) (by rwa [hstack]) t)]
    rfl
  obtain ⟨p, -, -⟩ := (ends_pushDerived hm).of_ok hderived
  have hentries := entriesOf_eq p.sound view
  rw [(p.viewable hv).2] at hentries
  have left : (m.viewEntries view).length * robotCost
      ≤ (m₁.withSlots (m.stack.slots.toList ++ [t])).room := by
    change _ ≤ m₁.room
    omega
  obtain ⟨_, m', hkeep, -⟩ := (spends_keepKinship _ kin t (m.viewEntries view)).exists_ok left
  refine ⟨t, m', ?_⟩
  rw [select, bind_of_ok hderived, bind_of_ok hentries, bind_of_ok hkeep]
  rfl

/-- **A call of `kin` or `nonkin` succeeds** if there is room for all robots of the view. -/
theorem exists_gives_neighborsKinship (hc : CalledWith c 0 m) (hv : m.Viewable view)
    (enough : kinshipCost (m.viewEntries view).length ≤ m.room) (kin : Bool) :
    ∃ t m', Gives (neighborsKinship kin view) m t m' := by
  have hm := hc.sound
  obtain ⟨t, m₁, hs⟩ := exists_select hm hv enough hc.room kin
  obtain ⟨p, -⟩ := (ends_select hm hv kin).of_ok hs
  have hreturn := ret1_eq (l := []) (p.hasOperands hm)
  rw [List.append_nil] at hreturn
  obtain ⟨m', hleave, -⟩ := (hc.toCalledBy.expands p.expands).exists_leaveFrame (some t)
  refine ⟨t, m', ?_, (top_leaveFrame t).of_ok hleave⟩
  rw [neighborsKinship_eq, bind_of_ok hc.requireArgs_eq, bind_of_ok hs, hreturn, hleave]

/-! ### Looking at the result -/

/-- A call of `count` answers the number of robots in the view, unless there is no room for an
integer. -/
theorem ends_neighborsCount (hc : CalledWith c 0 m) (view : View) : Ends (neighborsCount view) m
    (fun _ m' => ∃ r, m'.stack.slots.back? = some r
      ∧ m'.value r = .int (Int16.ofNat (m.viewEntries view).length))
    fun e _ => e = .fault .outOfMemory ∧ m.room < objectSize := by
  rw [ends_iff, neighborsCount, bind_of_ok hc.requireArgs_eq,
    bind_of_ok (entriesOf_eq hc.sound view), pushInt, pushValue, bind_assoc, ← ends_iff]
  refine ends_bind ((ends_alloc hc.sound.wellFormed (by simp) (by simp)).and
    (spends_alloc (by simp))) fun r m₁ h₁ => ?_
  obtain ⟨⟨ex, hr⟩, -⟩ := h₁
  have hstack : m₁.stack = m.stack := by rw [ex.same]
  have hlocals : m₁.locals = m.locals := by rw [ex.same]
  have hc₁ := hc.toCalledBy.expands ex
  have hl₁ : m₁.heap.IsTable m₁.locals := by
    rw [hlocals]
    exact (ex.unaltered hc.isTable.1).isTable hc.isTable
  have room : m₁.stack.depth < m₁.stack.capacity := by
    rw [hstack]
    exact hc.room
  obtain ⟨m', hs, -⟩ := hc₁.exists_leaveFrame (some r)
  have hd := (handed_leaveFrame hc₁.sound.wellFormed hl₁.1 r).of_ok hs
  rw [ends_iff, push_ret1_eq hc₁.sound.floor room, hs]
  refine ⟨r, hd.top, ?_⟩
  -- the answer is no table, so it is not the activation record
  have hvalid := (Heap.kind_of_value hr (by simp)).1
  have hlabel : (m₁.heap.value r).IsLabel := by
    rw [show m₁.heap.value r = _ from hr]
    trivial
  have ne : r ≠ m₁.locals := Heap.ne_of_isLabel hlabel hl₁
  have u := (Heap.spares_arrayClear hc₁.sound.wellFormed hl₁.1).unaltered_of_ne ne hvalid
  rw [value, hd.same]
  exact u.value.trans hr

/-- A call of `get` on a derived table answers what is stored under its argument. -/
theorem exists_gives_get (hc : CalledWith c 1 m) (hkey : m.heap.arrayGet? m.locals 1 = some key)
    (hvalue : m.value key = .int i) (hget : m.heap.tableGet? t key = some r) :
    ∃ m', Gives (neighborsGet (.derived t)) m r m' := by
  have hlocal : localAt 1 m = .ok key m := hc.localAt_eq rfl hkey
  have hint : intArg 1 m = .ok i m := hc.intArg_eq rfl hkey hvalue
  have hfound : tableGet t key m = .ok r m := by
    rw [tableGet, bind_of_ok (touch_of_tidy hc.sound.wellFormed hc.sound.tidy t), get_bind_apply,
      hget]
    rfl
  have hrun : neighborsGet (.derived t) m = (push r >>= fun _ => ret1) m := by
    rw [neighborsGet, bind_of_ok hc.requireArgs_eq, bind_of_ok hint]
    dsimp only
    rw [bind_of_ok hlocal, bind_of_ok hfound]
  obtain ⟨m', hs, htop⟩ := hc.exists_gives r
  exact ⟨m', hrun.trans hs, htop⟩

/-- `count()` of the view answers `i`, unless there is no room for an integer. -/
def Counts (m : Machine F) (view : View) (i : Int16) : Prop := ∀ c, CalledWith c 0 m →
  Ends (neighborsCount view) m
    (fun _ m' => ∃ r, m'.stack.slots.back? = some r ∧ m'.value r = .int i)
    fun e _ => e = .fault .outOfMemory ∧ m.room < objectSize

/-- `get(robot)` of the derived table `t` answers `r`. -/
def Finds (m : Machine F) (t : Ref) (robot : RobotId) (r : Ref) : Prop :=
  ∀ c key, CalledWith c 1 m → m.heap.arrayGet? m.locals 1 = some key →
    m.value key = .int robot.toInt16 → ∃ m', Gives (neighborsGet (.derived t)) m r m'

theorem counts_of_length {k : Nat} (h : (m.viewEntries view).length = k) :
    m.Counts view (Int16.ofNat k) :=
  fun _ hc => h ▸ ends_neighborsCount hc view

/-- The robots of a table that is kept are those that it had. -/
theorem viewEntries_of_keepsTable (kt : KeepsTable m.heap m'.heap t) :
    m'.viewEntries (.derived t) = m.viewEntries (.derived t) := by
  rw [viewEntries_derived, viewEntries_derived, kt.contents]

/-- What a table has for a robot is found, as long as the table is kept. -/
theorem finds_of_mem (roll : m.heap.Roll t) (he : (robot, some r) ∈ m.viewEntries (.derived t))
    (kt : KeepsTable m.heap p.heap t) : p.Finds t robot r := by
  intro c key hc hkey hvalue
  obtain ⟨e, hmem, hpair⟩ := List.mem_filterMap.1 he
  obtain ⟨i, hi, hentry⟩ := Option.map_eq_some_iff.1 hpair
  obtain ⟨hrobot, hr⟩ := Prod.mk.inj hentry
  have hint : m.heap.value e.1 = .int robot.toInt16 := by
    rw [← hrobot, Int16.toInt16_toUInt16]
    exact asInt?_eq_some hi
  have hfound : m.heap.tableGet? t e.1 = some r := by
    rw [roll.tableGet?_eq_some_iff (by rw [hint]; trivial)]
    exact List.mem_map.2 ⟨e, hmem, by rw [Option.some.inj hr]⟩
  have heq : m.heap.Equals e.1 p.heap key := by
    refine .inr ((Value.order_eq_iff _ _).2 ?_)
    rw [hint, show p.heap.value key = _ from hvalue]
    exact ⟨_, rfl, rfl⟩
  exact exists_gives_get hc hkey hvalue ((kt.tableGet? heq).trans hfound)

/-! ### Both calls -/

/-- `n` has the same view as `m`, and is told the same kinship. -/
structure SameView (m n : Machine F) (view : View) : Prop where
  /-- The view has the same robots, with the same objects stored for them. -/
  entries : n.viewEntries view = m.viewEntries view
  /-- The same robots share a swarm with this one. -/
  kinship : n.membership.isKin = m.membership.isKin

/-- Every entry of the table `t`, which was made in `m'`, holds what the view of `m` has for its
robot. This is what `get` answers, as long as the table is kept. -/
def Carries (view : View) (m : Machine F) (t : Ref) (m' : Machine F) : Prop :=
  ∀ e ∈ m'.viewEntries (.derived t), ∃ r, e.2 = some r ∧ m.Shows view e.1 m'.heap r
    ∧ ∀ p : Machine F, KeepsTable m'.heap p.heap t → p.Finds t e.1 r

theorem Selects.carries (sel : Selects kin view m t m') : Carries view m t m' := by
  rintro ⟨robot, stored⟩ he
  obtain ⟨r, rfl, shows⟩ := sel.shows _ he
  exact ⟨r, rfl, shows, fun _ => finds_of_mem sel.roll he⟩

theorem counts_of_keepsTable (kt : KeepsTable m'.heap p.heap t) :
    p.Counts (.derived t) (Int16.ofNat (m'.robots (.derived t)).length) := by
  refine counts_of_length ?_
  rw [viewEntries_of_keepsTable kt, Machine.robots, List.length_map]

/-- What a successful call returns is what it has selected. -/
theorem Gives.selects (hm : m.Serving) (hv : m.Viewable view)
    (hg : Gives (neighborsKinship kin view) m t m') : Selects kin view m t m' := by
  obtain ⟨t', htop, sel⟩ := (ends_neighborsKinship hm hv kin).of_ok hg.1
  rwa [Option.some.inj (hg.2.symm.trans htop)]

/-- **The results of `kin` and `nonkin` divide a view.** When both calls succeed, no robot is in
both results, each result has the order of the view, and together they have every robot of the view
once. A robot is in the first one exactly if it is kin. What is stored is what the view has for the
robot, and `get` answers it; and the answers of `count` for the results add up to that for the
view. -/
theorem kin_and_nonkin_divide_view (hm : m.Serving) (hn : n.Serving) (vm : m.Viewable view)
    (vn : n.Viewable view) (same : SameView m n view)
    (first : Gives (neighborsKinship true view) m t m')
    (second : Gives (neighborsKinship false view) n u n') :
    (m'.robots (.derived t)).Disjoint (n'.robots (.derived u))
    ∧ (m'.robots (.derived t)).Sublist (m.robots view)
    ∧ (n'.robots (.derived u)).Sublist (m.robots view)
    ∧ (m'.robots (.derived t) ++ n'.robots (.derived u)).Perm (m.robots view)
    ∧ (m.robots view).Nodup
    ∧ (∀ robot ∈ m.robots view,
        robot ∈ m'.robots (.derived t) ↔ m.membership.isKin robot = true)
    ∧ Carries view m t m' ∧ Carries view n u n'
    ∧ ∃ i j, (∀ p : Machine F, KeepsTable m'.heap p.heap t → p.Counts (.derived t) i)
      ∧ (∀ p : Machine F, KeepsTable n'.heap p.heap u → p.Counts (.derived u) j)
      ∧ ∀ p : Machine F, p.viewEntries view = m.viewEntries view → p.Counts view (i + j) := by
  have sel := first.selects hm vm
  have sel' := second.selects hn vn
  have hkin := sel.robots
  have hnonkin : n'.robots (.derived u)
      = (m.robots view).filter fun robot => !(m.membership.isKin robot == true) := by
    rw [sel'.robots, robots, same.entries, same.kinship, ← robots]
    exact List.filter_congr fun robot _ => by cases m.membership.isKin robot <;> rfl
  have hperm : (m'.robots (.derived t) ++ n'.robots (.derived u)).Perm (m.robots view) := by
    rw [hkin, hnonkin]
    exact List.filter_append_perm _ _
  refine ⟨?_, ?_, ?_, hperm, vm.nodup, fun robot hrobot => ?_, sel.carries, sel'.carries,
    Int16.ofNat (m'.robots (.derived t)).length, Int16.ofNat (n'.robots (.derived u)).length,
    fun _ => counts_of_keepsTable, fun _ => counts_of_keepsTable, fun p hp => ?_⟩
  · rw [hkin, hnonkin]
    intro robot hmem hmem'
    have h := (List.mem_filter.1 hmem).2
    have h' := (List.mem_filter.1 hmem').2
    rw [h] at h'
    cases h'
  · rw [hkin]
    exact List.filter_sublist
  · rw [hnonkin]
    exact List.filter_sublist
  · rw [hkin, List.mem_filter, beq_iff_eq]
    exact and_iff_right hrobot
  · rw [← Int16.ofNat_add, ← List.length_append, hperm.length_eq]
    refine counts_of_length ?_
    rw [hp, robots, List.length_map]

/-! ### A robot that sees two others -/

/-- The heap of the machine: nil, the integer zero, and the activation record of a call without
arguments. -/
@[irreducible] def sightHeap : Heap :=
  [.allocValue .nil, .allocValue (.int 0), .arrayNew, .arrayPush 2 0].foldl Heap.Request.perform
    (Heap.make 880)

/-- A machine in a call. It sees two robots, and shares a swarm with the second one, whose number
is a negative integer for a script. -/
def seeing : Machine Empty :=
  { blank { heapSize := 880 } 0 2 2 2 sightHeap with
    stack := { slots := #[1, 2, 1], capacity := 20, base := 3 }
    frameDepth := 1
    sensors := ((({ capacity := 4 } : Sensors).add ⟨7, 1, 2, 3⟩).2.add ⟨40000, 4, 5, 6⟩).2
    membership := { mask := 3, entries := [⟨40000, 2, 0, 50⟩], capacity := 4 } }

theorem calledWith_seeing : CalledWith ⟨0, 0, 2, 0⟩ 0 seeing ∧ kinshipCost 2 ≤ seeing.room := by
  have wf : sightHeap.WellFormed ∧ sightHeap.Tidy := by
    unfold sightHeap
    exact (Heap.Built.foldl (.make (by decide)) (by simp [Heap.Request.Allowed])).wellFormed
  have objects : sightHeap.value 1 = .int 0 ∧ sightHeap.isValid 2 = true
      ∧ sightHeap.kind 2 = .table ∧ sightHeap.arraySize 2 = 1
      ∧ kinshipCost 2 ≤ sightHeap.freeBytes := by decide +kernel
  obtain ⟨hzero, hvalid, hkind, hsize, hroom⟩ := objects
  have hargc : seeing.argc = 0 := by
    rw [argc, show seeing.heap.arraySize seeing.locals = 1 from hsize]
  exact ⟨⟨⟨⟨wf.1, wf.2, Nat.le_refl 3, show 3 ≤ 20 by omega⟩, rfl,
    ⟨⟨1, rfl, hzero⟩, rfl, ⟨1, rfl, hzero⟩, Nat.le_refl 0⟩, hvalid, Nat.one_pos⟩, ⟨hvalid, hkind⟩,
    hargc, show 3 < 20 by omega⟩, hroom⟩

theorem kin_and_nonkin_divide_seeing : seeing.Serving ∧ seeing.Viewable .sensed
    ∧ SameView seeing seeing .sensed
    ∧ ∃ t m' u n', Gives (neighborsKinship true .sensed) seeing t m'
      ∧ Gives (neighborsKinship false .sensed) seeing u n'
      ∧ (m'.robots (.derived t) ++ n'.robots (.derived u)).Perm [7, 40000]
      ∧ 40000 ∈ m'.robots (.derived t) ∧ 7 ∉ m'.robots (.derived t) := by
  obtain ⟨hc, enough⟩ := calledWith_seeing
  have hv : seeing.Viewable .sensed := .add _ (.add _ (.new 4))
  have same : SameView seeing seeing .sensed := ⟨rfl, rfl⟩
  have hrobots : seeing.robots .sensed = [7, 40000] := rfl
  obtain ⟨t, m', first⟩ := exists_gives_neighborsKinship hc hv enough true
  obtain ⟨u, n', second⟩ := exists_gives_neighborsKinship hc hv enough false
  obtain ⟨-, -, -, perm, -, hiff, -⟩ :=
    kin_and_nonkin_divide_view hc.serving hc.serving hv hv same first second
  rw [hrobots] at perm hiff
  refine ⟨hc.serving, hv, same, t, m', u, n', first, second, perm,
    (hiff 40000 (by simp)).2 (by decide), fun h => ?_⟩
  have hshared : seeing.membership.isKin 7 = false := by decide
  exact absurd ((hiff 7 (by simp)).1 h) (by simp [hshared])

end Machine

end SwarmVm
