import SwarmVm.Machine.Inbox
import SwarmVm.Proofs.Machine.Calls

/-!
# The control of a machine

How a machine goes on is told by its code and its program counter, by what it is doing, by the fault
that stopped it and by the functions it knows. Together with the faults reported so far this is its
control. Most of what instructions and host functions do is making objects, storing values and
sending messages, and leaves the control alone. Calls and jumps move the program counter.

What a relation between machines says of an action is that it leads from every machine to related
ones. The relations here are lenient: they hold of machines with the same control. Some of them are
roaming, so that the program counter may move as well. What holds of all of them is found by going
through the actions once.

## Main definitions

* `Machine.SameControl` — two machines go on alike
* `Machine.Leads` — an action leads from every machine to related ones
* `Machine.Lenient`, `Machine.Roaming` — relations that are not about the rest of a machine

## Main results

* `Machine.leads_modify`, `Machine.OnlyHeap.leads` — what leaves the control alone
* `Machine.leads_receive`, `Machine.leads_processOutbox` — messages that come in and go out
* `Machine.leads_storeVersion`, `Machine.leads_insertVersion` — the shared store
-/

namespace SwarmVm

namespace Machine

variable {F α β : Type} {m m' m'' : Machine F} {R : Machine F → Machine F → Prop}

/-- The machines go on alike, and have reported the same faults. -/
structure SameControl (m m' : Machine F) : Prop where
  /-- The program counter is the same, -/
  pc : m'.pc = m.pc
  /-- and so is what the machine is doing, -/
  state : m'.state = m.state
  /-- the fault that stopped it, -/
  error : m'.error = m.error
  /-- the faults it has reported, -/
  reports : m'.reports = m.reports
  /-- the functions it knows, -/
  functions : m'.functions = m.functions
  /-- and its code. -/
  code : m'.code = m.code

theorem SameControl.refl (m : Machine F) : SameControl m m := ⟨rfl, rfl, rfl, rfl, rfl, rfl⟩

theorem SameControl.trans (h : SameControl m m') (h' : SameControl m' m'') : SameControl m m'' :=
  ⟨h'.pc.trans h.pc, h'.state.trans h.state, h'.error.trans h.error, h'.reports.trans h.reports,
    h'.functions.trans h.functions, h'.code.trans h.code⟩

/-- From whatever machine the action starts, it leaves one that is related to it, whether it answers
or fails. -/
def Leads (R : Machine F → Machine F → Prop) (x : Action F α) : Prop := ∀ m,
  Ends x m (fun _ m' => R m m') fun _ m' => R m m'

/-- Machines with the same control are related, and so is what is reached in several steps. -/
class Lenient (R : Machine F → Machine F → Prop) : Prop where
  /-- The rest does not matter. -/
  same : ∀ {m m'}, SameControl m m' → R m m'
  /-- Several steps. -/
  trans : ∀ {m m' m''}, R m m' → R m' m'' → R m m''

/-- The program counter does not matter either. -/
class Roaming (R : Machine F → Machine F → Prop) : Prop extends Lenient R where
  /-- The machine goes on elsewhere. -/
  jump : ∀ (m : Machine F) (pc : UInt16), R m { m with pc }

instance lenient_sameControl : Lenient (SameControl (F := F)) := ⟨id, .trans⟩

/-- The machine is as ready as it was. -/
def SameState (m m' : Machine F) : Prop := m'.state = m.state

instance roaming_sameState : Roaming (SameState (F := F)) where
  same h := h.state
  trans h h' := Eq.trans h' h
  jump _ _ := rfl

/-! ### Actions, step by step -/

section Lenient

variable [Lenient R]

theorem Lenient.refl (m : Machine F) : R m m := Lenient.same (.refl m)

theorem leads_pure (a : α) : Leads R (pure a : Action F α) := fun m => ends_pure (Lenient.refl m)

theorem leads_throw (e : Halt) : Leads R (throw e : Action F α) :=
  fun m => ends_throw (Lenient.refl m)

theorem Leads.bind {x : Action F α} {f : α → Action F β} (hx : Leads R x)
    (hf : ∀ a, Leads R (f a)) : Leads R (x >>= f) := fun m =>
  ends_bind (hx m) fun a m' h => (hf a m').imp (fun _ _ => Lenient.trans h)
    fun _ _ => Lenient.trans h

omit [Lenient R] in
theorem leads_get_bind {f : Machine F → Action F β} (hf : ∀ m, Leads R (f m)) :
    Leads R (get >>= f) := fun m => ends_get_bind (hf m m)

theorem Leads.discard {x : Action F α} (hx : Leads R x) : Leads R (do let _ ← x) :=
  hx.bind fun _ => leads_pure _

omit [Lenient R] in
theorem Leads.attempt {x : Action F α} (hx : Leads R x) : Leads R (attempt x) := by
  intro m
  refine (ends_attempt (hx m)).imp ?_ ?_
  · rintro _ m' (⟨_, _, h⟩ | ⟨_, _, h⟩)
    · exact h
    · exact h
  · rintro _ m' ⟨_, h⟩
    exact h

/-- Registers that do not belong to the control. -/
theorem leads_modify {f : Machine F → Machine F} (hf : ∀ m, f m = { f m with
    pc := m.pc, state := m.state, error := m.error, reports := m.reports
    functions := m.functions, code := m.code }) : Leads R (modify f : Action F Unit) := by
  refine fun m => ends_modify (Lenient.same ⟨?_, ?_, ?_, ?_, ?_, ?_⟩) <;> rw [hf m]

theorem OnlyHeap.leads {x : Action F α} (hx : OnlyHeap x) : Leads R x := by
  have same : ∀ {m m' : Machine F}, m' = { m with heap := m'.heap, strayed := m'.strayed } →
      SameControl m m' := by
    intro m m' h
    rw [h]
    exact ⟨rfl, rfl, rfl, rfl, rfl, rfl⟩
  intro m
  exact (hx m).imp (fun _ _ h => Lenient.same (same h)) fun _ _ h => Lenient.same (same h)

theorem leads_require (c : Bool) (e : Fault) : Leads R (require c e : Action F Unit) :=
  (onlyHeap_require c e).leads

theorem leads_orFail (o : Option α) (e : Fault) : Leads R (orFail o e : Action F α) :=
  (onlyHeap_orFail o e).leads

theorem leads_touch (t : Ref) : Leads R (touch t : Action F Unit) := (onlyHeap_touch t).leads

theorem leads_onHeap (x : HeapM α) : Leads R (onHeap x : Action F α) := (onlyHeap_onHeap x).leads

theorem leads_alloc (v : Value) : Leads R (alloc v : Action F Ref) := (onlyHeap_alloc v).leads

theorem leads_arrayClone (a : Ref) : Leads R (arrayClone a : Action F Ref) :=
  (onlyHeap_arrayClone a).leads

theorem leads_arrayPush (a r : Ref) : Leads R (arrayPush a r : Action F Unit) :=
  (onlyHeap_arrayPush a r).leads

theorem leads_changeHeap (f : Heap → α × Heap) : Leads R (changeHeap f : Action F α) :=
  fun _ => ends_iff.2 (Lenient.same ⟨rfl, rfl, rfl, rfl, rfl, rfl⟩)

theorem leads_stray : Leads R (stray : Action F Unit) := leads_modify fun _ => rfl

theorem leads_emit (e : Event) : Leads R (emit e : Action F Unit) := leads_modify fun _ => rfl

/-! ### The stack -/

theorem leads_push (r : Ref) : Leads R (push r : Action F Unit) := by
  intro m
  rw [ends_iff, push]
  cases m.stack.push r <;> exact Lenient.same ⟨rfl, rfl, rfl, rfl, rfl, rfl⟩

theorem leads_pop : Leads R (pop : Action F Ref) := by
  intro m
  rw [ends_iff, pop]
  cases m.stack.pop <;> exact Lenient.same ⟨rfl, rfl, rfl, rfl, rfl, rfl⟩

theorem leads_peek (n : Nat) : Leads R (peek n : Action F Ref) := (onlyHeap_peek n).leads

theorem leads_setPeek (n : Nat) (r : Ref) : Leads R (setPeek n r : Action F Unit) := by
  intro m
  rw [ends_iff, setPeek]
  cases m.stack.setPeek n r <;> exact Lenient.same ⟨rfl, rfl, rfl, rfl, rfl, rfl⟩

theorem leads_popInt : Leads R (popInt : Action F Int16) :=
  leads_pop.bind fun _ => leads_get_bind fun _ => leads_orFail _ _

theorem leads_popPair : Leads R (popPair : Action F (Ref × Ref)) :=
  leads_pop.bind fun _ => leads_pop.bind fun _ => leads_pure _

theorem leads_pushValue (v : Value) : Leads R (pushValue v : Action F Unit) :=
  (leads_alloc v).bind fun _ => leads_push _

theorem leads_pushNil : Leads R (pushNil : Action F Unit) := leads_get_bind fun _ => leads_push _

theorem leads_pushTable : Leads R (pushTable : Action F Ref) :=
  (leads_onHeap _).bind fun _ => (leads_push _).bind fun _ => leads_pure _

theorem leads_collectGarbage : Leads R (collectGarbage : Action F Unit) :=
  leads_get_bind fun _ => leads_get_bind fun _ => (leads_require _ _).bind
    fun _ => (leads_changeHeap _).bind fun _ => leads_get_bind fun _ => leads_emit _

/-! ### Tables and arguments -/

theorem leads_tableGet (t key : Ref) : Leads R (tableGet t key : Action F Ref) :=
  (leads_touch t).bind fun _ => leads_get_bind fun _ => leads_pure _

theorem leads_tableSet (t key r : Ref) : Leads R (tableSet t key r : Action F Unit) :=
  (leads_touch t).bind fun _ => leads_onHeap _

theorem leads_field (t : Ref) (name : NameId) : Leads R (field t name : Action F Ref) :=
  (leads_alloc _).bind fun _ => leads_tableGet t _

theorem leads_setField (t : Ref) (name : NameId) (r : Ref) :
    Leads R (setField t name r : Action F Unit) :=
  (leads_alloc _).bind fun _ => leads_tableSet t _ r

theorem leads_expectTable (r : Ref) : Leads R (expectTable r : Action F Unit) :=
  leads_get_bind fun _ => leads_require _ _

theorem leads_localAt (i : UInt16) : Leads R (localAt i : Action F Ref) :=
  leads_get_bind fun _ => (leads_touch _).bind fun _ => leads_get_bind fun _ => leads_orFail _ _

theorem leads_requireArgs (n : Nat) : Leads R (requireArgs n : Action F Unit) :=
  leads_get_bind fun _ => (leads_touch _).bind fun _ => leads_get_bind fun _ => leads_require _ _

theorem leads_intArg (i : UInt16) : Leads R (intArg i : Action F Int16) :=
  (leads_localAt i).bind fun _ => leads_get_bind fun _ => leads_orFail _ _

theorem leads_stringArg (i : UInt16) : Leads R (stringArg i : Action F NameId) :=
  (leads_localAt i).bind fun _ => leads_get_bind fun _ => leads_orFail _ _

theorem leads_closureArg (i : UInt16) : Leads R (closureArg i : Action F Ref) :=
  (leads_localAt i).bind fun _ => leads_get_bind fun _ => (leads_require _ _).bind
    fun _ => leads_pure _

theorem leads_bindClosure (t r : Ref) : Leads R (bindClosure t r : Action F Ref) := by
  have rebind : ∀ captured, Leads R (rebind captured t : Action F Ref) := by
    intro captured
    refine (leads_arrayClone _).bind fun record => (leads_touch _).bind fun _ =>
      Leads.bind (leads_modify fun _ => rfl) fun _ => (leads_changeHeap _).bind fun _ =>
        (leads_changeHeap _).bind fun set => ?_
    split
    · exact (leads_arrayPush _ _).bind fun _ => leads_pure _
    · exact leads_pure _
  have selfRecord : Leads R (selfRecord t : Action F Ref) :=
    (leads_onHeap _).bind fun _ => (leads_arrayPush _ _).bind fun _ => leads_pure _
  refine leads_get_bind fun m => ?_
  cases (m.value r).asClosure? with
  | none => exact leads_pure r
  | some c =>
    dsimp only
    cases c.captured with
    | some captured => exact (rebind captured).bind fun _ => leads_alloc _
    | none => exact selfRecord.bind fun _ => leads_alloc _

theorem leads_addMethods (t : Ref) : ∀ methods, Leads R (addMethods t methods : Action F Unit)
  | [] => leads_pure ()
  | (_, _) :: rest => (leads_alloc _).bind fun _ => (leads_bindClosure t _).bind fun _ =>
    (leads_setField t _ _).bind fun _ => leads_addMethods t rest

theorem leads_methodTable (methods : List (Builtin × Primitive)) :
    Leads R (methodTable methods : Action F Ref) :=
  (leads_onHeap _).bind fun _ => (leads_addMethods _ _).bind fun _ => leads_pure _

/-! ### Messages -/

theorem leads_send (message : Message Value) : Leads R (send message : Action F Unit) := by
  refine leads_get_bind fun m => ?_
  obtain ⟨evicted, outbox⟩ := m.outbox.append message
  refine Leads.bind (leads_modify fun _ => rfl) fun _ => ?_
  cases evicted with
  | some lost => exact leads_emit _
  | none => exact leads_pure _

theorem leads_processOutbox : Leads R (processOutbox : Action F Unit) := by
  refine leads_get_bind fun m => ?_
  obtain ⟨announcement, membership⟩ := m.membership.tick m.robot
  refine Leads.bind (leads_modify fun _ => rfl) fun _ => ?_
  cases announcement with
  | some message => exact leads_send message
  | none => exact leads_pure _

omit [Lenient R] in
theorem ends_release_sameControl (m : Machine F) (message : Message Ref)
    {E : Halt → Machine F → Prop} :
    Ends (release message) m (fun _ m' => SameControl m m') E := by
  rw [release]
  cases message.payload? with
  | some r => exact ends_iff.2 ⟨rfl, rfl, rfl, rfl, rfl, rfl⟩
  | none => exact ends_pure (.refl m)

theorem leads_release (message : Message Ref) : Leads R (release message : Action F Unit) :=
  fun m => (ends_release_sameControl m message).imp (fun _ _ => Lenient.same) fun _ _ => id

theorem leads_payloadObject (message : Message Value) :
    Leads R (payloadObject message : Action F Ref) := by
  rw [payloadObject]
  cases message.payload? with
  | none => exact leads_get_bind fun _ => leads_pure _
  | some v => exact (leads_onHeap _).bind fun _ => (leads_changeHeap _).bind fun _ => leads_pure _

theorem leads_receive (payload : List UInt8) : Leads R (receive payload : Action F Unit) := by
  rw [receive]
  cases Wire.decode? payload with
  | none => exact leads_emit _
  | some message =>
    refine (leads_payloadObject message).bind fun r => leads_get_bind fun m => ?_
    obtain ⟨evicted, inbox⟩ := m.inbox.push (message.withPayload r)
    refine Leads.bind (leads_modify fun _ => rfl) fun _ => ?_
    cases evicted with
    | some lost => exact leads_release lost
    | none => exact leads_pure _

/-! ### The shared store -/

theorem leads_ownedCopy (r : Ref) : Leads R (ownedCopy r : Action F Ref) :=
  (leads_onHeap _).bind fun _ => (leads_changeHeap _).bind fun _ => leads_pure _

theorem leads_storeVersion (position : Nat) (v : Version) :
    Leads R (storeVersion position v : Action F Unit) := by
  refine leads_get_bind fun m => ?_
  cases m.stigmergy.entries[position]? with
  | none => exact leads_stray
  | some old =>
    refine Leads.bind ?_ fun _ => leads_modify fun _ => rfl
    rw [replaceOwned]
    split
    · exact leads_pure _
    · exact (leads_ownedCopy _).bind fun _ => (leads_changeHeap _).bind fun _ => leads_pure _

theorem leads_insertVersion (key : NameId) (v : Version) :
    Leads R (insertVersion key v : Action F Unit) :=
  leads_get_bind fun _ => (leads_ownedCopy _).bind fun _ => leads_modify fun _ => rfl

theorem leads_resetStigmergy : Leads R (resetStigmergy : Action F Unit) := leads_modify fun _ => rfl

theorem leads_sendEntry (op : StigmergyOp) (key : NameId) (position : Nat) :
    Leads R (sendEntry op key position : Action F Unit) := by
  refine leads_get_bind fun m => ?_
  cases m.stigmergy.entries[position]? with
  | none => exact leads_stray
  | some e => exact leads_send _

end Lenient

end Machine

end SwarmVm
