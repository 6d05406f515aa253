import SwarmVm.Proofs.Machine.Activations
import SwarmVm.Proofs.Machine.Reachable

/-!
# Courses of a machine

`Reachable` says which machines there are. Here it is said how one of them becomes another: step by
step, with collections, instructions, calls, returns and scripts as the steps, and with host code
seen where it calls back. What is done in the place of collections is a parameter, so that a course
can be followed for as long as an object is there.

A step may be looked at from an array that is looked after (`Wards`). It is work inside the current
call, a call with a new record, a return, or the start of a script; and it writes to the array only
if the array holds the locals.

Every request of host code is a course, provided that host code makes no closures that captured
something, and sets fields of tables only. A machine that was never given a script executes no
instruction unless a call is open.

## Main definitions

* `Machine.Chore`, `Machine.Advances`, `Machine.Runs` — what can happen to a machine
* `Machine.Attained` — the machines that come of it
* `Machine.Passes` — a step, as an array sees it
* `Machine.Settled` — machines between two requests

## Main results

* `Machine.Advances.passes` — every step is one for every array that is looked after
* `Machine.settled_make`, `Machine.Settled.served` — requests are courses
-/

namespace SwarmVm

namespace Machine

variable {F α β : Type} {collect : Action F Unit} {m m' m'' : Machine F} {w : Ward} {l l' : Bool}

/-! ### Steps -/

section Steps

variable [HostFunctions F]

/-- What is done inside the current call, or between two calls. -/
inductive Chore (collect : Action F Unit) : Action F Unit → Prop
  /-- The globals are bound. -/
  | bindGlobals : Chore collect bindGlobals
  /-- Garbage is collected. -/
  | collection : Chore collect collect
  /-- An array is copied. -/
  | copy (a : Ref) : Chore collect (do let _ ← arrayClone a)
  /-- Host code puts the operands of a call on the stack, -/
  | operands (closure : Ref) (args : List Ref) : Chore collect (pushOperands closure args)
  /-- or makes a call and runs it to completion. -/
  | call (fuel : Nat) (closure : Ref) (args : List Ref) :
    Chore collect (do let _ ← callWith collect fuel closure args)
  /-- A message is handled, -/
  | dispatch {fuel : Nat} {call : Caller F} (hcall : Pausing collect fuel call)
    (message : Message Ref) : Chore collect (dispatch call message)
  /-- and let go. -/
  | release (message : Message Ref) : Chore collect (release message)
  /-- A request is served. -/
  | request (fuel : Nat) (q : Request) (hq : q.isPlain = true) : Chore collect (q.perform fuel)
  /-- Other registers are set. -/
  | registers {f : Machine F → Machine F} (hf : ∀ m, f m = { m with
      pc := (f m).pc, state := (f m).state, error := (f m).error, inbox := (f m).inbox
      outbox := (f m).outbox, sensors := (f m).sensors, stigmergy := (f m).stigmergy
      membership := (f m).membership, pinned := (f m).pinned, receiver := (f m).receiver
      reports := (f m).reports, log := (f m).log }) : Chore collect (modify f)

/-- What can happen to a machine, whether it answers or fails. The flag says that the machine was
given a script; from then on it may execute instructions while no call is open. -/
inductive Advances (collect : Action F Unit) : Bool → Machine F → Bool → Machine F → Prop
  /-- Something is done inside the call. -/
  | chore {l : Bool} {m : Machine F} {x : Action F Unit} (hx : Chore collect x) :
    Advances collect l m l (stateAfter x m)
  /-- Host code sets a field of a table, which is no array. -/
  | setField {l : Bool} {m : Machine F} (t : Ref) (ht : m.heap.isArray t = false) (name : NameId)
    (r : Ref) : Advances collect l m l (stateAfter (setField t name r) m)
  /-- An instruction is executed. -/
  | execute {l : Bool} {m : Machine F} (runs : 0 < m.frameDepth ∨ l = true) {fuel : Nat}
    {call : Caller F} (hcall : Pausing collect fuel call) :
    Advances collect l m l (stateAfter (execute (runHost call)) m)
  /-- Host code makes the call whose operands are on the stack. -/
  | call {l : Bool} {m : Machine F} {fuel : Nat} {call : Caller F}
    (hcall : Pausing collect fuel call) :
    Advances collect l m l (stateAfter (Machine.call (runHost call)) m)
  /-- Host code closes the current call. -/
  | leave {l : Bool} {m : Machine F} (isOpen : 0 < m.frameDepth) (result : Option Ref) :
    Advances collect l m l (stateAfter (leaveFrame result) m)
  /-- An image is attached. -/
  | attach {l : Bool} {m : Machine F} (image : Image) :
    Advances collect l m l (stateAfter (attach image) m)
  /-- The script gets its locals, and the machine is ready. -/
  | ready {l : Bool} {m m₁ : Machine F} {record : Ref} (idle : m.frameDepth = 0)
    (hc : arrayClone m.defaultRecord m = .ok record m₁) :
    Advances collect l m true { m₁ with locals := record, state := .ready }

/-- Any number of steps. -/
inductive Runs (collect : Action F Unit) (l : Bool) (m : Machine F) : Bool → Machine F → Prop
  /-- No step. -/
  | refl : Runs collect l m l m
  /-- One step more. -/
  | next {l₁ l₂ : Bool} {m₁ m₂ : Machine F} (run : Runs collect l m l₁ m₁)
    (step : Advances collect l₁ m₁ l₂ m₂) : Runs collect l m l₂ m₂

/-- The machines that can come of a blank one, with depths that fit in sixteen bits and without
functions of the embedder. The flag says that they were given a script. -/
inductive Attained : Bool → Machine F → Prop
  /-- A machine with its own objects, and what has happened to it. -/
  | of_runs {s : Settings} {nil record globals listeners : Ref} {heap : Heap} {l : Bool}
    {m : Machine F} (hs : s.stackSize ≤ 65535) (accepted : Heap.refusal? s.heapSize = none)
    (hc : coreObjects (Heap.make s.heapSize) = .ok (nil, record, globals, listeners) heap)
    (run : Runs collectGarbage false (blank s nil record globals listeners heap) l m) :
    Attained l m

end Steps

/-! ### One step -/

/-- What a step does, as far as calls and an array are concerned that is looked after. -/
inductive Passes (w : Ward) (l : Bool) (m : Machine F) : Bool → Machine F → Prop
  /-- It does what an instruction can do. Where no instruction may be executed, the locals are left
  alone as well. -/
  | strides {m' : Machine F} (strides : Strides w m m')
    (spared : (0 < m.frameDepth ∨ l = true → m.locals ≠ w.ref) → Spared w m m') : Passes w l m l m'
  /-- All calls are dropped. -/
  | cleared {m' : Machine F} (idle : m'.Idle) (locals : m'.locals = m.locals)
    (spared : Spared w m m') : Passes w l m l m'
  /-- A script gets locals of its own. -/
  | ready {m' : Machine F} (idle : m'.Idle) (free : m.heap.isValid m'.locals = false)
    (spared : Spared w m m') (fresh : w.Private → Apart (.record m'.locals) m') :
    Passes w l m true m'

namespace Passes

theorem of_spared (wi : Within m m') (sp : Spared w m m') : Passes w l m l m' :=
  .strides (.within wi sp.minded) fun _ => sp

theorem minded (ps : Passes w l m l' m') : Minded w m m' := by
  cases ps with
  | strides st _ => exact st.minded
  | cleared _ _ sp => exact sp.minded
  | ready _ _ sp _ => exact sp.minded

theorem spared (ps : Passes w l m l' m') (hl : 0 < m.frameDepth ∨ l = true → m.locals ≠ w.ref) :
    Spared w m m' := by
  cases ps with
  | strides _ sp => exact sp hl
  | cleared _ _ sp => exact sp
  | ready _ _ sp _ => exact sp

/-- The locals of a call that is opened are its own. -/
theorem locals_ne (ps : Passes w l m l' m') (hdepth : m'.frameDepth = m.frameDepth + 1) :
    m'.locals ≠ w.ref := by
  cases ps with
  | cleared idle => exact absurd idle.frameDepth (by omega)
  | ready idle => exact absurd idle.frameDepth (by omega)
  | strides st _ =>
    cases st with
    | within wi _ => exact absurd wi.frameDepth (by omega)
    | opened _ _ _ _ _ _ locals => exact locals
    | resumed _ hdepth' _ => exact absurd hdepth' (by omega)

end Passes

theorem Calls.spared (ca : Calls w m m') : Spared w m m' := by
  cases ca with
  | opened _ _ spared => exact spared
  | returned _ _ spared => exact spared

theorem passes_attach (hm : m.Standard) (hs : Safe w m) (image : Image) :
    Passes w l m l (stateAfter (attach image) m) := by
  have idle : (stateAfter (attach image) m).Idle :=
    ⟨⟨⟨hm.wellFormed, hm.tidy, le_rfl, Nat.zero_le _⟩, hm.capacity, hm.functions⟩, rfl⟩
  exact .cleared idle rfl (hs.toApart.spared_of_heap ⟨rfl, rfl, rfl, rfl⟩ rfl)

theorem passes_ready (hm : m.Standard) (hs : Safe w m) (idle : m.frameDepth = 0) {a record : Ref}
    {m₁ : Machine F} (hc : arrayClone a m = .ok record m₁) :
    Passes w l m true { m₁ with locals := record, state := .ready } := by
  obtain ⟨g, free, holds⟩ := (ends_arrayClone hm.toSound a).of_ok hc
  have sound := g.sound hm.toSound
  have sp := g.spared hs.toApart
  have mi := g.mints
  obtain ⟨h, -, -, rfl⟩ := g
  have core : SameCore m { m with heap := h, locals := record, state := .ready } :=
    ⟨rfl, rfl, rfl, rfl⟩
  refine .ready ⟨⟨⟨sound.wellFormed, sound.tidy, sound.floor, sound.ceiling⟩, hm.capacity,
    hm.functions⟩, idle⟩ free (sp.trans (sp.apart.spared_of_heap ⟨rfl, rfl, rfl, rfl⟩ rfl))
    fun hw => ?_
  exact hs.toApart.of_fresh hw core mi free ⟨holds.isValid, holds.isArray⟩

section Steps

variable [HostFunctions F]

variable (confined : Confined collect) (hnew : ∀ a, Shelters (.record a) collect)
  (hcollect : Shelters w collect)

include confined hnew hcollect

theorem Chore.shelters {x : Action F Unit} (hx : Chore collect x) : Shelters w x := by
  have call := shelters_callWith confined hnew hcollect
  cases hx with
  | bindGlobals => exact shelters_bindGlobals
  | collection => exact hcollect
  | copy a => exact (shelters_arrayClone a).bind fun _ _ => shelters_pure trivial
  | operands closure args => exact shelters_pushOperands closure args
  | call fuel closure args => exact (call fuel closure args).bind fun _ _ => shelters_pure trivial
  | dispatch hcall message => exact shelters_dispatch (hcall.shelters (call _)) message
  | release message => exact shelters_release message
  | request fuel q hq => exact q.shelters_perform fuel hq
  | registers hf => exact shelters_modify fun m => by rw [hf m]

/-- **One step,** as an array sees it that is looked after. -/
theorem Advances.passes (step : Advances collect l m l' m') (hm : m.Orderly) (hs : Safe w m) :
    Passes w l m l' m' := by
  have standard := hm.standard
  have call := shelters_callWith confined hnew hcollect
  have new := fun a => shelters_callWith confined hnew (hnew a)
  cases step with
  | chore hx =>
    obtain ⟨wi, sp⟩ := ((hx.shelters confined hnew hcollect).confined standard hs).stateAfter
    exact .of_spared wi sp
  | setField t ht name r =>
    have ne : t ≠ w.ref := by
      rintro rfl
      rw [hs.isRecord.2] at ht
      cases ht
    obtain ⟨wi, sp⟩ := ((shelters_setField ne name r).confined standard hs).stateAfter
    exact .of_spared wi sp
  | execute runs hcall =>
    have st := (performs_execute (hcall.shelters (call _)) (fun a => hcall.shelters (new a _)) m
      standard hm.atSite hs).stateAfter
    exact .strides st fun hl => st.minded.spared (hl runs)
  | call hcall =>
    refine Ends.stateAfter ((calls_call standard hs (concludes_runHost (hcall.shelters (call _)))
      fun a => concludes_runHost (hcall.shelters (new a _))).imp (fun _ _ ca => ?_) fun _ _ h => ?_)
    · exact .strides (ca.strides standard hs) fun _ => ca.spared
    · rcases h with ⟨wi, sp⟩ | ca
      · exact .of_spared wi sp
      · exact .strides (ca.strides standard hs) fun _ => ca.spared
  | leave isOpen result =>
    have st := (performs_leaveFrame result m standard hm.atSite hs).stateAfter
    exact .strides st fun hl => st.minded.spared (hl (.inl isOpen))
  | attach image => exact passes_attach standard hs image
  | ready idle hc => exact passes_ready standard hs idle hc

end Steps

/-! ### Actions that are courses -/

section Requests

variable [HostFunctions F]

theorem Attained.advances (hm : Attained l m) (step : Advances collectGarbage l m l' m') :
    Attained l' m' := by
  cases hm with
  | of_runs hs accepted hc run => exact .of_runs hs accepted hc (run.next step)

/-- From whatever attained machine the action starts, it leaves one, whether it answers or fails. -/
def Attains (l : Bool) (x : Action F α) : Prop := ∀ m, Attained l m →
  Ends x m (fun _ m' => Attained l m') fun _ m' => Attained l m'

theorem attains_pure (a : α) : Attains l (pure a : Action F α) := fun _ hm => ends_pure hm

theorem attains_throw (e : Halt) : Attains l (throw e : Action F α) := fun _ hm => ends_throw hm

theorem Attains.bind {x : Action F α} {f : α → Action F β} (hx : Attains l x)
    (hf : ∀ a, Attains l (f a)) : Attains l (x >>= f) :=
  fun m hm => ends_bind (hx m hm) fun a m' hm' => hf a m' hm'

theorem attains_get_bind {f : Machine F → Action F β} (hf : ∀ m, Attains l (f m)) :
    Attains l (get >>= f) := fun m hm => ends_get_bind (hf m m hm)

theorem Attains.attempt {x : Action F α} (hx : Attains l x) : Attains l (attempt x) := by
  intro m hm
  refine (ends_attempt (hx m hm)).imp ?_ ?_
  · rintro _ m' (⟨_, _, hm'⟩ | ⟨_, _, hm'⟩)
    · exact hm'
    · exact hm'
  · rintro _ m' ⟨_, hm'⟩
    exact hm'

theorem Attains.of_discard {x : Action F α} (hx : Attains l (do let _ ← x)) : Attains l x := by
  intro m hm
  have after := (hx m hm).stateAfter
  rw [stateAfter_discard] at after
  exact ends_of_stateAfter after

theorem Chore.attains {x : Action F Unit} (hx : Chore collectGarbage x) : Attains l x :=
  fun _ hm => ends_of_stateAfter (hm.advances (.chore hx))

theorem attains_require (c : Bool) (e : Fault) : Attains l (require c e : Action F Unit) := by
  cases c with
  | true => exact attains_pure ()
  | false => exact attains_throw _

theorem pausing_callClosure (fuel : Nat) :
    Pausing collectGarbage fuel (callClosure fuel : Caller F) := by
  intro closure args m
  rw [callWith_collectGarbage]
  exact .inl rfl

theorem attains_callClosure (fuel : Nat) (closure : Ref) (args : List Ref) :
    Attains l (callClosure fuel closure args : Action F Ref) := by
  rw [← callWith_collectGarbage]
  exact (Chore.call fuel closure args).attains.of_discard

theorem attains_setError (e : Fault) : Attains l (setError e : Action F Unit) := by
  refine (Chore.registers fun _ => rfl).attains.bind fun _ => attains_get_bind fun m => ?_
  split
  · exact (Chore.registers fun _ => rfl).attains
  · exact attains_pure _

/-- A fault is reported, and the program counter is put back. -/
theorem attains_report (pc : UInt16) (e : Fault) : Attains l (do
    modify fun m => { m with pc }
    setError e : Action F Unit) :=
  (Chore.registers fun _ => rfl).attains.bind fun _ => attains_setError e

theorem attains_leaveFrame (result : Option Ref) :
    Attains l (leaveFrame result : Action F Unit) := by
  intro m hm
  by_cases idle : m.frameDepth = 0
  · refine (ends_leaveFrame_idle idle result).imp (fun _ _ h => h.elim) fun _ _ h => ?_
    rw [h]
    exact hm
  · exact ends_of_stateAfter (hm.advances (.leave (Nat.pos_of_ne_zero idle) result))

/-! ### Scripts -/

theorem attains_step (fuel : Nat) : Attains true (step fuel : Action F Unit) := by
  have instruction : Attains true (do collectGarbage; execute (runHost (callClosure fuel)) :
      Action F Unit) := Chore.collection.attains.bind fun _ _ hm =>
    ends_of_stateAfter (hm.advances (.execute (.inr rfl) (pausing_callClosure fuel)))
  refine attains_get_bind fun entry => ?_
  split
  · refine instruction.attempt.bind fun result => ?_
    cases result with
    | ok _ => exact attains_pure _
    | error e => exact attains_report entry.pc e
  · exact attains_pure _

theorem attains_run (n : Nat) : Attains true (run n : Action F Unit) := by
  intro m hm
  induction n generalizing m with
  | zero => exact ends_throw hm
  | succ n ih =>
    have hstep := attains_step n m hm
    rw [ends_iff, run]
    by_cases hready : m.state = .ready
    · simp only [hready, if_true]
      cases hs : step n m with
      | ok _ m₁ => exact ends_iff.1 (ih m₁ (hstep.of_ok hs))
      | error e m₁ => exact hstep.of_error hs
    · simp only [hready, if_false]
      exact hm

theorem attains_prologue (n : Nat) : Attains true (prologue n : Action F (Option Fault)) := by
  induction n with
  | zero => exact attains_throw _
  | succ n ih =>
    refine attains_get_bind fun m => ?_
    split
    · exact (Chore.registers fun _ => rfl).attains.bind fun _ => attains_pure _
    · refine (attains_step n).bind fun _ => attains_get_bind fun m => ?_
      cases m.state with
      | error | done => exact attains_pure _
      | ready | noCode => exact ih

theorem attains_drainInbox (n : Nat) : Attains l (drainInbox n : Action F Unit) := by
  induction n with
  | zero => exact attains_throw _
  | succ n ih =>
    refine attains_get_bind fun m => ?_
    obtain ⟨message?, inbox⟩ := m.inbox.pop
    cases message? with
    | none => exact attains_pure _
    | some message =>
      refine (Chore.registers fun _ => rfl).attains.bind fun _ => ?_
      refine (Chore.dispatch (pausing_callClosure n) message).attains.attempt.bind fun result =>
        (Chore.release message).attains.bind fun _ => ?_
      cases result with
      | ok _ => exact ih
      | error e => exact attains_setError e

theorem attains_callGlobal (fuel : Nat) (name : NameId) (args : List Ref) :
    Attains l (callGlobal fuel name args : Action F Ref) := by
  have lookup : Attains l (global name : Action F Ref) :=
    (Chore.request fuel (.global name) rfl).attains.of_discard
  exact lookup.bind fun _ => attains_get_bind fun _ => (attains_require _ _).bind
    fun _ => attains_callClosure _ _ _

theorem attains_functionCall (fuel : Nat) (name : NameId) (args : List Ref) :
    Attains l (functionCall fuel name args : Action F Ref) := by
  refine attains_get_bind fun entry => ?_
  cases entry.state with
  | error | noCode => exact attains_throw _
  | ready | done =>
    refine (attains_callGlobal fuel name args).attempt.bind fun result => ?_
    cases result with
    | ok r => exact attains_pure r
    | error e =>
      exact (Chore.registers fun _ => rfl).attains.bind fun _ => (attains_setError e).bind
        fun _ => attains_throw _

/-- An image gives the machine a script, or the state is left as it is. -/
theorem Attained.ends_load (hm : Attained l m) (fuel : Nat) (bytes : List UInt8) :
    Ends (load fuel bytes) m
      (fun _ m' => Attained true m' ∨ Attained l m' ∧ m'.state = m.state)
      fun _ m' => Attained true m' ∨ Attained l m' ∧ m'.state = m.state := by
  rw [load]
  cases Image.parse bytes with
  | error e => exact ends_pure (.inr ⟨hm, rfl⟩)
  | ok image =>
    have attached : Ends (attach image) m (fun _ m₁ => m₁ = stateAfter (attach image) m)
        fun _ m₁ => Attained true m₁ ∨ Attained l m₁ ∧ m₁.state = m.state := ends_iff.2 rfl
    refine ends_bind attached fun _ m₁ h₁ => ends_get_bind ?_
    have hm₁ : Attained l m₁ := h₁ ▸ hm.advances (.attach image)
    have idle₁ : m₁.frameDepth = 0 := h₁ ▸ rfl
    have state₁ : m₁.state = m.state := h₁ ▸ rfl
    clear h₁
    have clone : Ends (arrayClone m₁.defaultRecord) m₁
        (fun record m₂ => Attained true { m₂ with locals := record, state := .ready })
        fun _ m₂ => Attained l m₂ ∧ m₂.state = m.state := by
      refine ⟨fun hc => hm₁.advances (.ready idle₁ hc), fun hc => ?_⟩
      have copied : Attains l (arrayClone m₁.defaultRecord : Action F Ref) :=
        (Chore.copy _).attains.of_discard
      exact ⟨(copied m₁ hm₁).of_error hc,
        ((leads_arrayClone (R := SameState) m₁.defaultRecord m₁).of_error hc).trans state₁⟩
    refine ends_bind ((ends_attempt clone).imp (fun _ _ => id) fun _ _ h => .inr h.2)
      fun result m₂ h₂ => ?_
    rcases h₂ with ⟨record, rfl, hm₂⟩ | ⟨e, rfl, hm₂⟩
    · refine ends_bind (ends_modify (Q := fun _ m₃ => Attained true m₃) hm₂) fun _ m₃ hm₃ => ?_
      refine ends_bind ((attains_prologue fuel m₃ hm₃).imp (fun _ _ => id) fun _ _ => .inl)
        fun e m₄ hm₄ => ?_
      cases e with
      | some e => exact ends_pure (.inl hm₄)
      | none => exact ends_pure (.inl hm₄)
    · exact ends_pure (.inr hm₂)

/-! ### Requests -/

/-- Host code makes no closures that captured something, and sets fields of tables only. -/
def Request.Honest (m : Machine F) : Request → Prop
  | .alloc v => v.captured? = none
  | .setField t _ _ => m.heap.isArray t = false
  | _ => True

/-- Requests other than those that attach or execute a script are courses of every machine. -/
theorem Attained.ends_perform (hm : Attained l m) (fuel : Nat) {q : Request} (hq : q.Honest m)
    (hload : ∀ bytes, q ≠ .load bytes) (hstep : q = .step ∨ q = .run → l = true) :
    Ends (q.perform fuel) m (fun _ m' => Attained l m') fun _ m' => Attained l m' := by
  have discard : ∀ {α : Type} {x : Action F α}, Attains l x → Attains l (do let _ ← x) :=
    fun hx => hx.bind fun _ => attains_pure _
  have plain : q.isPlain = true → Ends (q.perform fuel) m (fun _ m' => Attained l m')
      fun _ m' => Attained l m' := fun hp => (Chore.request fuel q hp).attains m hm
  cases q with
  | load bytes => exact absurd rfl (hload bytes)
  | step =>
    obtain rfl := hstep (.inl rfl)
    exact attains_step fuel m hm
  | run =>
    obtain rfl := hstep (.inr rfl)
    exact attains_run fuel m hm
  | functionCall name args => exact discard (attains_functionCall fuel name args) m hm
  | callClosure closure args => exact discard (attains_callClosure fuel closure args) m hm
  | processInbox =>
    refine attains_get_bind (fun m => ?_) m hm
    cases m.state with
    | ready | done => exact attains_drainInbox fuel
    | noCode | error => exact attains_pure _
  | setField t name r => exact ends_of_stateAfter (hm.advances (.setField t hq name r))
  | ret0 => exact attains_leaveFrame none m hm
  | ret1 =>
    have pop : Attains l (pop : Action F Ref) := (Chore.request fuel .pop rfl).attains.of_discard
    exact attains_get_bind (fun _ => (attains_require _ _).bind fun _ => pop.bind
      fun r => attains_leaveFrame (some r)) m hm
  | alloc v => exact plain (Option.isNone_iff_eq_none.2 hq)
  | _ => exact plain rfl

/-- A machine without a script executes nothing, -/
theorem Request.ends_noCode (hs : m.state = .noCode) (fuel : Nat) {q : Request}
    (hq : q = .step ∨ q = .run) :
    Ends (q.perform fuel) m (fun _ m' => m' = m) fun _ m' => m' = m := by
  have idle : m.state ≠ .ready := by rw [hs]; simp
  rcases hq with rfl | rfl
  · refine ends_get_bind ?_
    rw [if_neg idle]
    exact ends_pure rfl
  · cases fuel with
    | zero => exact ends_throw rfl
    | succ n =>
      rw [ends_iff, perform, Machine.run]
      simp only [idle, if_false]

/-- and has none after other requests. -/
theorem Request.ends_state (hs : m.state = .noCode) (fuel : Nat) {q : Request}
    (hload : ∀ bytes, q ≠ .load bytes) (hstep : ¬ (q = .step ∨ q = .run)) :
    Ends (q.perform fuel) m (fun _ m' => m'.state = m.state) fun _ m' => m'.state = m.state := by
  cases q with
  | load bytes => exact absurd rfl (hload bytes)
  | step | run => simp at hstep
  | functionCall name args =>
    refine ends_bind (Q := fun _ m' => m'.state = m.state) (ends_get_bind ?_)
      fun _ _ h => ends_pure h
    rw [hs]
    exact ends_throw hs
  | processInbox =>
    refine ends_get_bind ?_
    rw [hs]
    exact ends_pure hs
  | clearError =>
    refine ends_modify ?_
    rw [if_neg (by rw [hs]; simp)]
  | receive payload => exact leads_receive (R := SameState) payload m
  | _ => exact Request.leads_of_isQuiet (leads_callClosure_sameState fuel) rfl m

/-- A machine between two requests. The flag says that it was given a script. -/
structure Settled (l : Bool) (m : Machine F) : Prop where
  /-- It has come of a blank one. -/
  attained : Attained l m
  /-- Without a script its state says so. -/
  state : l = false → m.state = .noCode

/-- Machines that are made are settled. -/
theorem settled_make {s : Settings} (hs : s.stackSize ≤ 65535) (hm : make s = .ok m) :
    Settled false m := by
  obtain ⟨nil, record, globals, listeners, heap, accepted, hc, hx⟩ := exists_bindGlobals_of_make hm
  have blank : Attained false (blank s nil record globals listeners heap : Machine F) :=
    .of_runs hs accepted hc .refl
  have standing := idle_blank (F := F) accepted hc hs
  have steady := (yields_bindGlobals Heap.reliance_arbitrary standing.toSound.reliable).of_ok hx
  refine ⟨(Chore.bindGlobals.attains _ blank).of_ok hx, fun _ => ?_⟩
  rw [steady.1.same]
  rfl

/-- **Requests are courses** of the machines that host code can reach. -/
theorem Settled.served (hm : Settled l m) (fuel : Nat) {q : Request} (hq : q.Honest m) :
    ∃ l', Settled l' (stateAfter (q.perform fuel) m) := by
  by_cases hload : ∃ bytes, q = .load bytes
  · obtain ⟨bytes, rfl⟩ := hload
    have after := (hm.attained.ends_load fuel bytes).stateAfter
    rw [← stateAfter_discard] at after
    rcases after with after | ⟨after, state⟩
    · exact ⟨true, after, fun h => by cases h⟩
    · exact ⟨l, after, fun h => state.trans (hm.state h)⟩
  have hload : ∀ bytes, q ≠ .load bytes := fun bytes he => hload ⟨bytes, he⟩
  cases l with
  | true =>
    exact ⟨true, (hm.attained.ends_perform fuel hq hload fun _ => rfl).stateAfter,
      fun h => by cases h⟩
  | false =>
    have hs := hm.state rfl
    by_cases hstep : q = .step ∨ q = .run
    · have same := (Request.ends_noCode hs fuel hstep).stateAfter
      rw [same]
      exact ⟨false, hm⟩
    · exact ⟨false, (hm.attained.ends_perform fuel hq hload fun h => absurd h hstep).stateAfter,
        fun _ => (Request.ends_state hs fuel hload hstep).stateAfter.trans hs⟩

end Requests

end Machine

end SwarmVm
