import SwarmVm.Proofs.Machine.Confined
import SwarmVm.Proofs.Machine.Control

/-!
# Conditions that last

That an action is confined says what it does to the registers of a call, and little about the
objects of the heap. Other things are true of a machine for a long time: that the entries of the
store own their values, say, or that an object which host code has in its hands is still there.
Such a condition is not ended by work inside a call, which neither takes objects away nor changes
any but tables, and the changes of the store must not end it either. Then no host function ends it,
and so no instruction does.

A condition may also be about the control. Instructions end it, as they move the program counter,
but what host code does outside of calls need not: the condition is a patient one.

Whether a collection ends it is left open here. It depends on the roots, and so on the condition.

## Main definitions

* `Machine.Aside` — the objects and the store are as they were
* `Machine.Lasting` — conditions that work inside a call and changes of the store do not end
* `Machine.Patient` — the same, for work that leaves the control alone
* `Machine.Upholds` — an action that is confined to a call and does not end a condition
* `Machine.Finishes` — the same for an action that ends with a return

## Main results

* `Machine.upholds_of_yields` — work inside a call
* `Machine.finishes_leaveFrame` — returns
* `Machine.ends_call` — calls
-/

namespace SwarmVm

namespace Machine

open Heap (Arbitrary Keeps)

variable {F α β : Type} {m m' m'' : Machine F} {I : Machine F → Prop} {P : Heap → Ref → Prop}

/-- Every object of `m` is there in `m'`, as permanent as it was and, unless it is a table, with its
value; the store and the inbox hold what they held, nil is the same, and so is the robot. -/
structure Aside (m m' : Machine F) : Prop where
  /-- The entries of the store are the same. -/
  entries : m'.stigmergy.entries = m.stigmergy.entries
  /-- No further object is shared by two of them. -/
  shared : m'.stigmergy.shared = m.stigmergy.shared
  /-- No entry was given a table. -/
  tabled : m'.stigmergy.tabled = m.stigmergy.tabled
  /-- The store was not started over. -/
  starts : m'.stigmergy.starts = m.stigmergy.starts
  /-- The inbox is the same. -/
  inbox : m'.inbox = m.inbox
  /-- Nil is the same object. -/
  nil : m'.nil = m.nil
  /-- It is the same robot. -/
  robot : m'.robot = m.robot
  /-- The objects are still there. -/
  keeps : Keeps m.heap m'.heap

theorem Steady.aside (st : Steady P m m') : Aside m m' := by
  have same := st.same
  refine ⟨?_, ?_, ?_, ?_, ?_, ?_, ?_, st.keeps⟩
  · rw [same]
  · rw [same]
  · rw [same]
  · rw [same]
  · rw [same]
  · rw [same]
  · rw [same]

/-- Neither work inside a call that leaves the control alone nor a change of the store ends the
condition. -/
class Patient (I : Machine F → Prop) : Prop where
  /-- Work inside a call. -/
  calm : ∀ {m m'}, Aside m m' → SameControl m m' → I m → I m'
  /-- A version is put in an entry. -/
  store : ∀ (p : Nat) (v : Version) {m}, m.Standard → I m →
    Ends (storeVersion p v) m (fun _ m' => I m') fun _ m' => I m'
  /-- An entry is added. -/
  insert : ∀ (key : NameId) (v : Version) {m}, m.Standard → I m →
    Ends (insertVersion key v) m (fun _ m' => I m') fun _ m' => I m'
  /-- The store is started over. -/
  reset : ∀ {m}, m.Standard → I m → Ends resetStigmergy m (fun _ m' => I m') fun _ m' => I m'

/-- Neither work inside a call nor a change of the store ends the condition. -/
class Lasting (I : Machine F → Prop) : Prop extends Patient I where
  /-- Work inside a call. -/
  aside : ∀ {m m'}, Aside m m' → I m → I m'
  calm := fun as _ hi => aside as hi

/-- Nothing ends the condition that says nothing. -/
instance lasting_true : Lasting (fun _ : Machine F => True) where
  aside _ _ := trivial
  store _ _ _ _ _ := ⟨fun _ => trivial, fun _ => trivial⟩
  insert _ _ _ _ _ := ⟨fun _ => trivial, fun _ => trivial⟩
  reset _ _ := ⟨fun _ => trivial, fun _ => trivial⟩

/-! ### Actions -/

/-- From whatever standard machine the action starts of which the condition holds, it leaves the
registers of the call alone and the condition true, whether it answers or fails. -/
def Upholds (I : Machine F → Prop) (x : Action F α) : Prop := ∀ m, m.Standard → I m →
  Ends x m (fun _ m' => Within m m' ∧ I m') fun _ m' => Within m m' ∧ I m'

theorem Confined.upholds {x : Action F α} (hx : Confined x) (hI : ∀ {m}, m.Standard → I m →
    Ends x m (fun _ m' => I m') fun _ m' => I m') : Upholds I x :=
  fun m hm hi => (hx m hm).and (hI hm hi)

theorem Confined.upholds_true {x : Action F α} (hx : Confined x) : Upholds (fun _ => True) x :=
  hx.upholds fun _ _ => ⟨fun _ => trivial, fun _ => trivial⟩

theorem Upholds.confined {x : Action F α} (hx : Upholds (fun _ => True) x) : Confined x :=
  fun m hm => (hx m hm trivial).imp (fun _ _ h => h.1) fun _ _ h => h.1

theorem upholds_pure (a : α) : Upholds I (pure a : Action F α) :=
  fun _ hm hi => ends_pure ⟨.refl hm, hi⟩

theorem upholds_throw (e : Halt) : Upholds I (throw e : Action F α) :=
  fun _ hm hi => ends_throw ⟨.refl hm, hi⟩

theorem upholds_fail (e : Fault) : Upholds I (fail e : Action F α) := upholds_throw _

/-- The action may start later in the call. -/
theorem Confined.later {x : Action F α} (hx : Confined x) (w : Within m m') :
    Ends x m' (fun _ m'' => Within m m'') fun _ m'' => Within m m'' :=
  (hx m' w.standard).imp (fun _ _ => w.trans) fun _ _ => w.trans

theorem Upholds.later {x : Action F α} (hx : Upholds I x) (w : Within m m') (hi : I m') :
    Ends x m' (fun _ m'' => Within m m'' ∧ I m'') fun _ m'' => Within m m'' ∧ I m'' :=
  (hx m' w.standard hi).imp (fun _ _ h => ⟨w.trans h.1, h.2⟩) fun _ _ h => ⟨w.trans h.1, h.2⟩

theorem Upholds.bind {x : Action F α} {f : α → Action F β} (hx : Upholds I x)
    (hf : ∀ a, Upholds I (f a)) : Upholds I (x >>= f) := by
  intro m hm hi
  exact ends_bind (hx m hm hi) fun a m' h => (hf a).later h.1 h.2

theorem upholds_get_bind {f : Machine F → Action F β} (hf : ∀ m, Upholds I (f m)) :
    Upholds I (get >>= f) := fun m hm hi => ends_get_bind (hf m m hm hi)

theorem Upholds.attempt {x : Action F α} (hx : Upholds I x) : Upholds I (attempt x) := by
  intro m hm hi
  refine (ends_attempt (hx m hm hi)).imp ?_ ?_
  · rintro _ m' (⟨_, _, h⟩ | ⟨_, _, h⟩)
    · exact h
    · exact h
  · rintro _ m' ⟨_, h⟩
    exact h

/-! ### Actions that leave the control alone -/

section Patient

variable [Patient I]

theorem upholds_of_leads {x : Action F α} {R : Machine F → α → Machine F → Prop}
    (hx : ∀ {m}, m.Reliable Arbitrary → Yields Arbitrary x m (R m)) (hc : Leads SameControl x) :
    Upholds I x :=
  (confined_of_yields hx).upholds fun {m} hm hi => (Ends.and (hx hm.reliable) (hc m)).imp
    (fun _ _ h => Patient.calm h.1.1.aside h.2 hi) fun _ _ h => Patient.calm h.1.2.aside h.2 hi

/-- Registers that neither a call nor the control needs. -/
theorem upholds_adjust {f : Machine F → Machine F} (hf : ∀ m, f m = { m with
    outbox := (f m).outbox, sensors := (f m).sensors, membership := (f m).membership
    pinned := (f m).pinned, receiver := (f m).receiver, log := (f m).log
    strayed := (f m).strayed
    stigmergy := { m.stigmergy with
      onConflict := (f m).stigmergy.onConflict
      onConflictLost := (f m).stigmergy.onConflictLost } }) :
    Upholds I (modify f : Action F Unit) := by
  refine Confined.upholds (confined_modify fun m => ?_) fun {m} hm hi => ends_modify ?_
  · rw [hf m]
  · have aside : Aside m (f m) := by
      rw [hf m]
      exact ⟨rfl, rfl, rfl, rfl, rfl, rfl, rfl, .refl _⟩
    have same : SameControl m (f m) := by
      rw [hf m]
      exact ⟨rfl, rfl, rfl, rfl, rfl, rfl⟩
    exact Patient.calm aside same hi

end Patient

/-! ### All actions -/

section Lasting

variable [Lasting I]

/-- The condition is about the heap, the store, the inbox, nil and the number of the robot. -/
theorem Lasting.congr (hi : I m) (heap : m'.heap = m.heap) (stigmergy : m'.stigmergy = m.stigmergy)
    (inbox : m'.inbox = m.inbox) (nil : m'.nil = m.nil) (robot : m'.robot = m.robot) : I m' :=
  Lasting.aside ⟨by rw [stigmergy], by rw [stigmergy], by rw [stigmergy], by rw [stigmergy], inbox, nil, robot,
    by rw [heap]; exact .refl _⟩ hi

/-- Whatever is steady ends no condition that lasts. -/
theorem upholds_of_yields {x : Action F α} {R : Machine F → α → Machine F → Prop}
    (hx : ∀ {m}, m.Reliable Arbitrary → Yields Arbitrary x m (R m)) : Upholds I x :=
  (confined_of_yields hx).upholds fun hm hi => Ends.imp (hx hm.reliable)
    (fun _ _ h => Lasting.aside h.1.aside hi) fun _ _ h => Lasting.aside h.2.aside hi

/-- Registers other than the stack, the activation record and the number of open calls do not
matter, except for the inbox and the entries of the store. -/
theorem upholds_modify {f : Machine F → Machine F} (hf : ∀ m, f m = { m with
    pc := (f m).pc, state := (f m).state, error := (f m).error, outbox := (f m).outbox
    sensors := (f m).sensors, membership := (f m).membership, pinned := (f m).pinned
    receiver := (f m).receiver, reports := (f m).reports, log := (f m).log
    stigmergy := { m.stigmergy with
      onConflict := (f m).stigmergy.onConflict
      onConflictLost := (f m).stigmergy.onConflictLost } }) :
    Upholds I (modify f : Action F Unit) := by
  refine Confined.upholds (confined_modify fun m => ?_) fun {m} hm hi => ends_modify ?_
  · rw [hf m]
  · have aside : Aside m (f m) := by
      rw [hf m]
      exact ⟨rfl, rfl, rfl, rfl, rfl, rfl, rfl, .refl _⟩
    exact Lasting.aside aside hi

/-! ### Returns -/

/-- Inside any call, the action ends by returning to the caller; when it fails, it is still in the
call. In either case the condition is true. -/
def Finishes (I : Machine F → Prop) (x : Action F Unit) : Prop := ∀ c m, Called c m → I m →
  Ends x m (fun _ m' => Resumed c m m' ∧ I m') fun _ m' => Within m m' ∧ I m'

omit [Lasting I] in
theorem Upholds.finishes {x : Action F α} {f : α → Action F Unit} (hx : Upholds I x)
    (hf : ∀ a, Finishes I (f a)) : Finishes I (x >>= f) := by
  intro c m hc hi
  have hd : c.depth ≤ m.stack.base := by
    rw [hc.base]
    omega
  refine ends_bind (hx m hc.standard hi) fun a m' h => ?_
  exact (hf a c m' (hc.within h.1) h.2).imp (fun _ _ h' => ⟨h.1.resumed h'.1 hd, h'.2⟩)
    fun _ _ h' => ⟨h.1.trans h'.1, h'.2⟩

omit [Lasting I] in
theorem finishes_get_bind {f : Machine F → Action F Unit} (hf : ∀ m, Finishes I (f m)) :
    Finishes I (get >>= f) := fun c m hc hi => ends_get_bind (hf m c m hc hi)

/-- A return finds the bookkeeping of the call. All that it does to the heap is that the activation
record is cleared. -/
theorem finishes_leaveFrame (result : Option Ref) :
    Finishes I (leaveFrame result : Action F Unit) := by
  intro c m hc hi
  obtain ⟨_, hb, hbase⟩ := hc.saved.base
  obtain ⟨_, ha, haddress⟩ := hc.saved.address
  refine (ends_leaveFrame hc.standard.wellFormed hc.frameDepth hc.base hc.standard.floor
    hc.standard.ceiling hc.locals.1 hb hbase hc.saved.locals ha haddress).imp (fun _ m' h => ?_)
    fun _ _ => id
  have ev : Heap.Evolves ∅ ∅ m.heap (m.heap.arrayClear m.locals) :=
    Heap.evolves_arrayClear hc.standard.wellFormed hc.locals
  have aside : Aside m m' := by
    rw [h, returned]
    exact ⟨rfl, rfl, rfl, rfl, rfl, rfl, rfl, .of_evolves ev⟩
  refine ⟨?_, Lasting.aside aside hi⟩
  rw [h]
  exact resumed_returned hc result

theorem finishes_ret0 : Finishes I (ret0 : Action F Unit) := finishes_leaveFrame none

theorem finishes_ret1 : Finishes I (ret1 : Action F Unit) :=
  finishes_get_bind fun _ => (upholds_of_yields yields_require).finishes fun _ =>
    (upholds_of_yields yields_pop).finishes fun r => finishes_leaveFrame (some r)

/-! ### Calls -/

/-- A call opens a call, or has already returned, when it was one of a host function. -/
theorem ends_call (hm : m.Standard) (hi : I m) {host : UInt16 → Action F Unit}
    (hhost : ∀ id, Finishes I (host id)) :
    Ends (call host) m (fun _ m' => (∃ argc, m.Operands argc
        ∧ (Opened (m.stack.depth - argc - 2) m m' ∨ Returned (m.stack.depth - argc - 2) m m'))
        ∧ I m')
      fun _ m' => AfterCall m m' ∧ I m' := by
  refine ends_bind ((entered_enter Heap.reliance_arbitrary hm.reliable).imp (fun _ _ => id)
    fun _ m' h => ⟨.inl h.2, Lasting.aside h.2.toSteady.aside hi⟩) fun target m' h => ?_
  obtain ⟨argc, record, base, address, m₁, en, he⟩ := h
  have operands : m.Operands argc := ⟨en.count, en.operands⟩
  have op := en.opened hm
  have hi' : I m' := by
    rw [he]
    exact Lasting.congr (Lasting.aside en.still.toSteady.aside hi) rfl rfl rfl rfl rfl
  rw [← he] at op
  cases target with
  | code address' =>
    have jump : Upholds I (modify fun m : Machine F => { m with pc := address' }) :=
      upholds_modify fun _ => rfl
    refine ends_modify ⟨⟨argc, operands, .inl (op.within ?_)⟩, ?_⟩
    · exact ((jump m' op.standard hi').of_ok rfl).1
    · exact ((jump m' op.standard hi').of_ok rfl).2
  | host number =>
    refine ends_get_bind (ends_bind ((hhost number _ m' op.called hi').imp (fun _ _ => id)
      fun _ _ h => ?_) fun _ m'' re => ends_get_bind ?_)
    · exact ⟨.inr ⟨argc, operands, .inl (op.within h.1)⟩, h.2⟩
    · have ret := op.returned re.1
      cases hc : m''.frameDepth + 1 == m'.frameDepth with
      | true => exact ends_pure ⟨⟨argc, operands, .inr ret⟩, re.2⟩
      | false => exact ends_throw ⟨.inr ⟨argc, operands, .inr ret⟩, re.2⟩

end Lasting

end Machine

end SwarmVm
