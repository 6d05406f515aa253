import SwarmVm.Proofs.Heap.Maps
import SwarmVm.Proofs.Heap.Vacancies
import SwarmVm.Proofs.Machine.FailedCalls
import SwarmVm.Robot

/-!
# Control cycles with nothing to do

A robot whose script has ended and that receives nothing still goes through its control cycles, and
in each of them it looks for a global function `step`. To look up a name, the machine makes an
object for it. Nothing refers to this object afterwards, but garbage is only collected before an
instruction is executed, and no instruction is. So every cycle takes one place in the heap for good,
until none is left; from then on the look-up fails, which changes nothing any more, and a message
that arrives finds no place for its payload.

This is all that a cycle does to the heap. Hence a message is taken in after `n` cycles exactly if
it has no payload, or there was room for more than `n` objects.

## Main definitions

* `Heap.tableKeys` — the keys of a table
* `Machine.Dormant` — the script has ended, no message waits, and there is no global `step`
* `Machine.Idled` — what some idle cycles do

## Main results

* `Robot.idled_soloCycle` — one cycle takes one place
* `Robot.idled_soloCycles` — and any number of them as many
* `Machine.answers_receive_iff` — when a message is taken in
* `Robot.receives_after_cycles` — both together
* `Robot.starved_by_cycles` — a message that is not taken in after some cycles
-/

namespace SwarmVm

/-! ### Look-ups that find nothing -/

namespace Heap

variable {h h' : Heap} {t k : Ref} {name : NameId}

/-- The keys of a table, in the order of their places. -/
def tableKeys (h : Heap) (t : Ref) : List Ref := (h.pairSlots t).filterMap h.key?

theorem Unaltered.tableKeys (u : Unaltered h h' t) : h'.tableKeys t = h.tableKeys t := by
  have hkeys : ∀ g : Heap, g.tableKeys t
      = ((g.pairSlots t).map fun q => (g.key? q, g.fieldValue? q)).filterMap Prod.fst := by
    intro g
    rw [List.filterMap_map]
    rfl
  rw [hkeys, hkeys, u.map_pairSlots]

theorem tableGet?_of_absent (absent : ∀ k' ∈ h.tableKeys t, ¬ h.Alike k' k) :
    h.tableGet? t k = none := by
  have hfind : h.findKey? t k = none := by
    refine List.find?_eq_none.2 fun q hq hkey => ?_
    obtain ⟨k', hk', hcompare⟩ := (Option.any_eq_true _ _).1 hkey
    exact absent k' (List.mem_filterMap.2 ⟨q, hq, hk'⟩) (beq_compare.1 hcompare)
  rw [tableGet?, hfind, Option.bind_none]

/-- The keys of the table are there, and none of them is the name. -/
def Lacks (h : Heap) (t : Ref) (name : NameId) : Prop :=
  ∀ k ∈ h.tableKeys t, h.isValid k = true ∧ h.value k ≠ .string name

theorem Lacks.grows (hl : h.Lacks t name) (ht : h.isValid t = true) (g : h.Grows h') :
    h'.Lacks t name := by
  intro k hk
  rw [(g.spares.unaltered ht).tableKeys] at hk
  obtain ⟨hv, hne⟩ := hl k hk
  have u := g.spares.unaltered hv
  exact ⟨u.isValid, u.value ▸ hne⟩

theorem Lacks.tableGet? (hl : h.Lacks t name) (hk : h.value k = .string name) :
    h.tableGet? t k = none := by
  exact tableGet?_of_absent fun k' hk' halike => (hl k' hk').2 ((alike_iff_of_string hk).1 halike)

end Heap

namespace Machine

variable {F : Type} {m m' m'' : Machine F} {n k : Nat}

/-! ### Machines with nothing to do -/

/-- The script has ended, no message waits, and no global has the name `step`. -/
structure Dormant (m : Machine F) : Prop extends m.Sound where
  /-- The script has ended. -/
  state : m.state = .done
  /-- No message waits. -/
  inbox : m.inbox.isEmpty = true
  /-- The shared nil is there. -/
  nil : m.heap.isValid m.nil = true ∧ m.heap.value m.nil = .nil
  /-- The globals are a table, -/
  globals : m.heap.IsTable m.globals
  /-- and there is no `step` among them. -/
  step : m.heap.Lacks m.globals Builtin.step.nameId

/-- The machine `m'` is what is left of `m` after work that took up to `n` places in the heap, sent
messages and aged the swarm list. -/
structure Idled (n : Nat) (m m' : Machine F) : Prop where
  /-- No object is altered. -/
  grows : m.heap.Grows m'.heap
  /-- As many places are taken, if there are as many. -/
  vacancies : m'.heap.vacancies = m.heap.vacancies - n
  /-- Everything else is the same. -/
  same : m' = { m with
    heap := m'.heap, membership := m'.membership, outbox := m'.outbox, log := m'.log }

theorem Idled.refl (wf : m.heap.WellFormed) : Idled 0 m m := ⟨.refl wf, rfl, rfl⟩

theorem Idled.trans (i : Idled n m m') (i' : Idled k m' m'') : Idled (n + k) m m'' := by
  refine ⟨i.grows.trans i'.grows, ?_, ?_⟩
  · rw [i'.vacancies, i.vacancies, Nat.sub_sub]
  · rw [i'.same, i.same]

/-- There is still nothing to do. -/
theorem Dormant.idled (hm : m.Dormant) (i : Idled n m m') : m'.Dormant := by
  have hnil := i.grows.spares.unaltered hm.nil.1
  have hglobals := i.grows.spares.unaltered hm.globals.1
  rw [i.same]
  exact {
    wellFormed := i.grows.wellFormed
    tidy := i.grows.tidy hm.tidy
    floor := hm.floor
    ceiling := hm.ceiling
    state := hm.state
    inbox := hm.inbox
    nil := ⟨hnil.isValid, hnil.value.trans hm.nil.2⟩
    globals := hglobals.isTable hm.globals
    step := hm.step.grows hm.globals.1 i.grows }

/-! ### One cycle -/

/-- Work that does not touch the heap. -/
theorem Dormant.idled_of_same (hm : m.Dormant) (same : m' = { m with
    membership := m'.membership, outbox := m'.outbox, log := m'.log }) : Idled 0 m m' := by
  have hheap : m'.heap = m.heap := by rw [same]
  refine ⟨?_, congrArg Heap.vacancies hheap, ?_⟩
  · rw [hheap]
    exact .refl hm.wellFormed
  · rw [hheap]
    exact same

/-- A new object takes a place. If there is none, nothing happens. -/
theorem ends_allocValue (wf : m.heap.WellFormed) {v : Value} (hv : ∀ t, v ≠ .table t) :
    Ends (onHeap (Heap.allocValue v)) m
      (fun r m' => m'.heap.value r = v ∧ m.heap.vacancies = m'.heap.vacancies + 1 ∧ Idled 1 m m')
      fun e m' => e ≠ .outOfFuel ∧ m.heap.vacancies = 0 ∧ Idled 1 m m' := by
  rw [ends_iff, onHeap]
  simp only [detachHeap]
  have alloc := (Heap.grows_allocValue wf hv).and (Heap.vacancies_allocValue wf v)
  cases ha : Heap.allocValue v m.heap with
  | ok r h =>
    obtain ⟨⟨g, -, hvalue⟩, hvacancies⟩ := alloc.of_ok ha
    exact ⟨hvalue, hvacancies, g, by simp [hvacancies], rfl⟩
  | error e h =>
    obtain ⟨-, rfl, hvacancies⟩ := alloc.of_error ha
    exact ⟨by simp, hvacancies, .refl wf, by simp [hvacancies], rfl⟩

/-- The look-up of `step` takes a place, and finds nothing. -/
theorem Dormant.ends_global (hm : m.Dormant) : Ends (global Builtin.step.nameId) m
    (fun r m' => m'.heap.kind r = .nil ∧ Idled 1 m m')
    fun e m' => e ≠ .outOfFuel ∧ Idled 1 m m' := by
  have hkey : ∀ t, Value.string Builtin.step.nameId ≠ .table t := by simp
  refine ends_get_bind (ends_bind ((ends_allocValue hm.wellFormed hkey).imp (fun _ _ => id)
    fun _ _ h => ⟨h.1, h.2.2⟩) fun key m₁ h => ?_)
  obtain ⟨hvalue, -, i⟩ := h
  have hm₁ := hm.idled i
  have hglobals : m₁.globals = m.globals := by rw [i.same]
  refine ends_bind (Q := fun _ m' => m' = m₁) ?_ fun _ m' he => ends_get_bind ?_
  · rw [ends_iff, ← hglobals, touch_eq hm₁.wellFormed fun _ => hm₁.globals.1]
  subst he
  rw [← hglobals, hm₁.step.tableGet? hvalue, Option.getD_none]
  refine ends_pure ⟨?_, i⟩
  rw [hm₁.tidy.kind_eq, hm₁.nil.2]
  rfl

theorem Dormant.ends_processInbox [HostFunctions F] (hm : m.Dormant) (fuel : Nat)
    {E : Halt → Machine F → Prop} :
    Ends (processInbox (fuel + 1)) m (fun _ m' => m' = m) E := by
  have hpop : m.inbox.pop = (none, m.inbox) := by rw [Ring.pop, if_pos hm.inbox]
  refine ends_get_bind ?_
  rw [hm.state]
  refine ends_get_bind ?_
  rw [hpop]
  exact ends_pure rfl

theorem ends_processOutbox {E : Halt → Machine F → Prop} : Ends processOutbox m
    (fun _ m' => m' = { m with
      membership := m'.membership, outbox := m'.outbox, log := m'.log }) E := by
  refine ends_get_bind ?_
  obtain ⟨announcement, membership⟩ := m.membership.tick m.robot
  refine ends_bind (ends_modify (Q := fun _ m' => m' = { m with membership }) rfl) fun _ m₁ he => ?_
  subst he
  cases announcement with
  | none => exact ends_pure rfl
  | some message =>
    refine ends_get_bind ?_
    obtain ⟨evicted, outbox⟩ := Outbox.append m.outbox message
    refine ends_bind (ends_modify (Q := fun _ m' => m' = { m with membership, outbox }) rfl)
      fun _ m₂ he => ?_
    subst he
    cases evicted with
    | none => exact ends_pure rfl
    | some lost => exact ends_modify rfl

end Machine

namespace Robot

open Machine (Dormant Idled)

variable {m : Machine Empty} {n : Nat}

theorem ends_callIfDefined (hm : m.Dormant) :
    Ends (callIfDefined .step) m (fun _ m' => Idled 1 m m') fun _ _ => False := by
  have isDefined : Ends (isDefined .step) m (fun b m' => b = false ∧ Idled 1 m m')
      fun _ _ => False := by
    refine ends_bind ((Machine.ends_attempt hm.ends_global).imp (fun _ _ => id)
      fun _ _ h => h.2.1 h.1) fun found m₁ h => ?_
    rcases h with ⟨r, rfl, hkind, i⟩ | ⟨e, rfl, -, i⟩
    · exact ends_get_bind (ends_pure ⟨by rw [hkind]; rfl, i⟩)
    · exact ends_pure ⟨rfl, i⟩
  refine ends_bind isDefined fun b m₁ h => ?_
  obtain ⟨rfl, i⟩ := h
  exact ends_pure i

theorem after_eq {α : Type} (x : Action Empty α) (m : Machine Empty) :
    after x m = stateAfter x m := by
  rw [after, stateAfter]
  cases x m <;> rfl

/-- A cycle takes one place in the heap. -/
theorem idled_soloCycle (hm : m.Dormant) : Idled 1 m (soloCycle m) := by
  have thinks : Ends think m (fun _ m' => Idled 1 m m') fun _ m' => Idled 1 m m' := by
    refine ends_bind (hm.ends_processInbox 999999999999999) fun _ m' he => ?_
    subst he
    exact (ends_callIfDefined hm).imp (fun _ _ => id) fun _ _ => False.elim
  have thought : Idled 1 m (after think m) := after_eq think m ▸ thinks.stateAfter
  have hm₁ := hm.idled thought
  have alive : isAlive (after think m) = true := by rw [isAlive, hm₁.state]; rfl
  rw [soloCycle]
  simp only [alive, if_true]
  generalize after think m = m₁ at thought hm₁
  have sent := (Machine.ends_processOutbox (m := m₁) (E := fun _ m' => m' = { m₁ with
    membership := m'.membership, outbox := m'.outbox, log := m'.log })).stateAfter
  rw [← after_eq] at sent
  refine thought.trans (hm₁.idled_of_same ?_)
  rw [sent]

/-- Any number of cycles take as many places. -/
theorem idled_soloCycles (hm : m.Dormant) : Idled n m (soloCycles n m) := by
  induction n generalizing m with
  | zero => exact .refl hm.wellFormed
  | succ n ih =>
    have i := idled_soloCycle hm
    have hm₁ := hm.idled i
    have alive : isAlive (soloCycle m) = true := by rw [isAlive, hm₁.state]; rfl
    rw [soloCycles]
    simp only [alive, if_true]
    rw [Nat.add_comm]
    exact i.trans (ih hm₁)

end Robot

/-! ### Messages -/

namespace Machine

variable {F : Type} {m : Machine F} {payload : List UInt8} {message : Message Value}

theorem ends_payloadObject (wf : m.heap.WellFormed) (hd : Wire.decode? payload = some message) :
    Ends (payloadObject message) m (fun _ _ => message.payload? = none ∨ 0 < m.heap.vacancies)
      fun _ _ => ¬ (message.payload? = none ∨ 0 < m.heap.vacancies) := by
  rw [payloadObject]
  cases hp : message.payload? with
  | none => exact ends_get_bind (ends_pure (.inl rfl))
  | some v =>
    have hv : ∀ t, v ≠ .table t := by
      obtain ⟨-, -, -, -, hs, -⟩ := Wire.exists_reads_of_decode? hd
      rintro t rfl
      exact (hs _ hp).1 rfl
    refine ends_bind ((ends_allocValue wf hv).imp (fun _ _ => id) fun _ _ h => ?_) fun r m₁ h => ?_
    · simp [h.2.1]
    · exact ends_bind (Q := fun _ _ => True) (ends_iff.2 trivial) fun _ _ _ =>
        ends_pure (.inr (by omega))

/-- A message is taken in if it has no payload, or there is a place for it. -/
theorem answers_receive_iff (wf : m.heap.WellFormed) (hd : Wire.decode? payload = some message) :
    answers (receive payload) m = true ↔ message.payload? = none ∨ 0 < m.heap.vacancies := by
  have ends : Ends (receive payload) m
      (fun _ _ => message.payload? = none ∨ 0 < m.heap.vacancies)
      fun _ _ => ¬ (message.payload? = none ∨ 0 < m.heap.vacancies) := by
    rw [receive, hd]
    refine ends_bind (ends_payloadObject wf hd) fun r m₁ h => ends_get_bind ?_
    obtain ⟨evicted, inbox⟩ := m₁.inbox.push (message.withPayload r)
    refine ends_bind (ends_modify (Q := fun _ _ => True) trivial) fun _ m₂ _ => ?_
    cases evicted with
    | none => exact ends_pure h
    | some lost =>
      change Ends (release lost) m₂ _ _
      rw [release]
      cases lost.payload? with
      | none => exact ends_pure h
      | some r => exact ends_iff.2 h
  rw [answers]
  cases hs : receive payload m with
  | ok _ m' => simpa using ends.of_ok hs
  | error e m' => simpa using ends.of_error hs

end Machine

namespace Robot

open Machine (Dormant Idled)

variable {m : Machine Empty} {payload : List UInt8} {message : Message Value}

/-- **Idle cycles fill the heap.** Let the script of a robot have ended without a global `step`, and
let no message wait. Then every control cycle takes one place in the heap for an object, as long as
there is one. A message that can be read is taken in after `n` cycles if it has no payload, or if
there is room for more than `n` objects to begin with, and not otherwise. -/
theorem receives_after_cycles (hm : m.Dormant) (hd : Wire.decode? payload = some message)
    (n : Nat) :
    (soloCycles n m).Dormant
    ∧ (soloCycles n m).heap.vacancies = m.heap.vacancies - n
    ∧ (answers (Machine.receive payload) (soloCycles n m) = true
      ↔ message.payload? = none ∨ n < m.heap.vacancies) := by
  have i := idled_soloCycles (n := n) hm
  have hm' := hm.idled i
  refine ⟨hm', i.vacancies, ?_⟩
  rw [Machine.answers_receive_iff hm'.wellFormed hd, i.vacancies]
  exact or_congr_right ⟨fun h => by omega, fun h => by omega⟩

/-! ### A robot whose script has ended -/

open Machine

/-- A machine before the last instruction of its script. -/
def ending : Machine Empty :=
  stateAfter (Request.perform 1 (.load [0, 0, Opcode.nop.byte, Opcode.done.byte]))
    (blank { heapSize := 192 } 0 1 2 3 smallHeap)

/-- The machine after it. A collection keeps all objects that there are. -/
def ended : Machine Empty := ending.advanced (Array.replicate 5 true)

/-- A broadcast of a number by another robot. -/
def note : List UInt8 := [0, 0, 2, 0, 34, 1, 0, 7]

theorem decode?_note : Wire.decode? note = some (.broadcast 2 34 (.int 7)) := by decide

theorem ended_evaluates :
    (ending.state = .ready ∧ ending.Marks (Array.replicate 5 true)
      ∧ answers (execute (runHost (callClosure 1))) (ending.swept (Array.replicate 5 true)) = true)
    ∧ ended.state = .done ∧ ended.inbox.isEmpty = true
    ∧ (ended.heap.isValid ended.nil = true ∧ ended.heap.value ended.nil = .nil)
    ∧ (ended.heap.isValid ended.globals = true ∧ ended.heap.kind ended.globals = .table)
    ∧ ended.heap.tableKeys ended.globals = [] ∧ ended.heap.vacancies = 15 := by
  rw [ended, ending, smallHeap_eq]
  decide +kernel

theorem resting_ended : Resting ended := by
  obtain ⟨⟨hready, hmarks, hanswers⟩, -⟩ := ended_evaluates
  have hb : Resting (blank { heapSize := 192 } 0 1 2 3 smallHeap : Machine Empty) :=
    .blank (s := { heapSize := 192 }) (by decide) (by decide) coreObjects_small
  have hending : Resting ending := hb.served 1 _ trivial
  have hstep : step 1 ending = .ok () ended := by
    rw [step_eq_reporting hready]
    exact reporting_of_ok _ (advance_of_marks hmarks hanswers)
  have hserved : stateAfter (Request.perform 1 .step) ending = ended := by
    rw [stateAfter, Request.perform, hstep]
  exact hserved ▸ hending.served 1 .step trivial

theorem dormant_ended : ended.Dormant := by
  obtain ⟨-, hstate, hinbox, hnil, hglobals, hkeys, -⟩ := ended_evaluates
  refine { resting_ended.sound with
    state := hstate, inbox := hinbox, nil := hnil, globals := hglobals, step := fun k hk => ?_ }
  rw [hkeys] at hk
  cases hk

theorem receives_after_cycles_ended : ended.Dormant
    ∧ Wire.decode? note = some (.broadcast 2 34 (.int 7))
    ∧ (soloCycles 14 ended).heap.vacancies = 1
    ∧ answers (receive note) (soloCycles 14 ended) = true := by
  obtain ⟨-, -, -, -, -, -, hroom⟩ := ended_evaluates
  obtain ⟨-, hvacancies, hreceives⟩ := receives_after_cycles dormant_ended decode?_note 14
  exact ⟨dormant_ended, decode?_note, by rw [hvacancies, hroom], hreceives.2 (.inr (by omega))⟩

/-- The broadcast is taken in when the script has ended, but not after fifteen cycles in which
nothing happens. -/
theorem starved_by_cycles : Resting ended ∧ ended.Dormant ∧ answers (receive note) ended = true
    ∧ answers (receive note) (soloCycles 15 ended) = false := by
  obtain ⟨-, -, -, -, -, -, hroom⟩ := ended_evaluates
  have i := idled_soloCycles (n := 15) dormant_ended
  have before := answers_receive_iff dormant_ended.wellFormed decode?_note
  have behind := answers_receive_iff (dormant_ended.idled i).wellFormed decode?_note
  rw [hroom] at before
  rw [i.vacancies, hroom] at behind
  refine ⟨resting_ended, dormant_ended, before.2 (.inr (by omega)), ?_⟩
  rw [← Bool.not_eq_true, behind]
  simp [Message.payload?]

end Robot

end SwarmVm
