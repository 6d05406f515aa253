import SwarmVm.Machine.Boot
import SwarmVm.Proofs.Machine.Delivery
import SwarmVm.Proofs.Machine.Roaming

/-!
# The life of a machine

Host code makes a machine, attaches an image to it, and from then on lets it step, calls closures,
hands messages to it and takes messages from it, in any order and whether or not any of this fails.
What every one of these requests finds and leaves is an orderly machine: either no call is open, or
the open calls have their bookkeeping on the stack, one above the other. Orderly machines are sound,
so soundness is not a condition on what host code does. A condition that endures is carried along.

A machine that has failed in the middle of a call keeps the call open. Its next instruction is again
one inside that call, and attaching another image drops the stack with all calls.

## Main definitions

* `Machine.Orderly` — machines between two requests
* `Machine.Preserves` — actions that leave orderly machines
* `Machine.New` — machines at the start
* `Machine.Request`, `Machine.Reached` — what host code may ask for, and the machines it can reach

## Main results

* `Machine.new_make` — machines that are made are new
* `Machine.regime_orderly`, `Machine.preserves_step` — instructions leave orderly machines
* `Machine.preserves_load` — attaching an image
* `Machine.Reached.holds` — what endures is true of the machines that host code can reach
* `Machine.Reached.sound` — they are sound
-/

namespace SwarmVm

namespace Machine

open Heap (reliance_arbitrary)

variable {F α β : Type} {entry m m' : Machine F} {d : Nat} {I : Machine F → Prop}

/-! ### Orderly machines -/

/-- No call is open. -/
structure Idle (m : Machine F) : Prop extends m.Standard where
  /-- No call is open. -/
  frameDepth : m.frameDepth = 0

/-- No call is open, or the open calls form a chain of callers. -/
inductive Orderly : Machine F → Prop
  /-- No call is open. -/
  | idle {m : Machine F} (standing : m.Idle) : Orderly m
  /-- There is a chain of callers, down to a machine without open calls. -/
  | inCall {entry m : Machine F} {c : Site} {sites : List Site} (frameDepth : entry.frameDepth = 0)
    (chain : InCall entry c sites m) : Orderly m

theorem Idle.within (hm : m.Idle) (w : Within m m') : m'.Idle :=
  ⟨w.standard, w.frameDepth.trans hm.frameDepth⟩

namespace Orderly

theorem standard (hm : m.Orderly) : m.Standard := by
  cases hm with
  | idle standing => exact standing.toStandard
  | inCall _ chain => exact chain.standard

theorem within (hm : m.Orderly) (w : Within m m') : m'.Orderly := by
  cases hm with
  | idle standing => exact .idle (standing.within w)
  | inCall frameDepth chain => exact .inCall frameDepth (chain.within w)

/-- A call from a machine without open calls may still be going on. -/
theorem of_progress (frameDepth : entry.frameDepth = 0) (pr : Progress entry m) : m.Orderly := by
  rcases pr with ⟨c, sites, chain⟩ | re
  · exact .inCall frameDepth chain
  · exact .idle ⟨re.standard, re.frameDepth.trans frameDepth⟩

end Orderly

/-- The operands of a call are what is above the depth `d`. -/
theorem loaded_truncate (hm : m.Standard) (hbase : m.stack.base ≤ d) (hd : d ≤ m.stack.depth) :
    Loaded (m.stack.depth - d) { m with stack := m.stack.truncate d } m := by
  have hdepth := OperandStack.depth_truncate hd
  have hmin : min m.stack.base d = m.stack.base := Nat.min_eq_left hbase
  constructor
  case toKept =>
    refine ⟨⟨hm, rfl, fun i hi => (OperandStack.getElem?_truncate ?_).symm⟩, fun r _ => .refl _ r⟩
    exact hi.trans_le hdepth.le
  case depth =>
    change m.stack.depth = (m.stack.truncate d).depth + (m.stack.depth - d)
    omega
  case base =>
    change m.stack.base = min m.stack.base (m.stack.truncate d).slots.size
    rw [OperandStack.depth] at hdepth
    rw [hdepth, hmin]
  case locals => rfl
  case pc => rfl
  case frameDepth => rfl

/-! ### New machines -/

/-- No call is open, nothing is stored, and there are no messages. -/
structure New (m : Machine F) : Prop extends m.Idle where
  /-- Nothing is stored. -/
  entries : m.stigmergy.entries = #[]
  /-- There are no messages. -/
  inbox : ∃ n, m.inbox = Ring.make n

theorem new_blank {s : Settings} (hs : s.stackSize ≤ 65535) {heap : Heap} (wf : heap.WellFormed)
    (tidy : heap.Tidy) (nil record globals listeners : Ref) :
    New (blank s nil record globals listeners heap : Machine F) :=
  ⟨⟨⟨⟨wf, tidy, le_rfl, Nat.zero_le _⟩, hs, rfl⟩, rfl⟩, rfl, _, rfl⟩

/-- The machines that are made are new. -/
theorem new_make {s : Settings} (hs : s.stackSize ≤ 65535) (hm : make s = .ok m) : m.New := by
  obtain ⟨nil, record, globals, listeners, heap, hl, steady⟩ := exists_steady_of_make hm
  have hb := new_blank (F := F) hs hl.wellFormed hl.tidy nil record globals listeners
  have st := steady reliance_arbitrary hb.toSound.reliable
  have as := st.aside
  exact ⟨hb.toIdle.within (st.within hb.toStandard), as.entries.trans hb.entries, _, as.inbox⟩

/-! ### Instructions -/

/-- From whatever orderly machine the action starts of which the condition holds, it leaves an
orderly one of which it holds, whether it answers or fails. -/
def Preserves (I : Machine F → Prop) (x : Action F α) : Prop := ∀ m, m.Orderly → I m →
  Ends x m (fun _ m' => m'.Orderly ∧ I m') fun _ m' => m'.Orderly ∧ I m'

theorem Upholds.preserves {x : Action F α} (hx : Upholds I x) : Preserves I x := by
  intro m hm hi
  exact (hx m hm.standard hi).imp (fun _ _ h => ⟨hm.within h.1, h.2⟩)
    fun _ _ h => ⟨hm.within h.1, h.2⟩

theorem Upholds.preserves_discard {x : Action F α} (hx : Upholds I x) :
    Preserves I (do let _ ← x) := (hx.bind fun _ => upholds_pure _).preserves

theorem Preserves.bind {x : Action F α} {f : α → Action F β} (hx : Preserves I x)
    (hf : ∀ a, Preserves I (f a)) : Preserves I (x >>= f) := by
  intro m hm hi
  exact ends_bind (hx m hm hi) fun a m' h => hf a m' h.1 h.2

theorem preserves_get_bind {f : Machine F → Action F β} (hf : ∀ m, Preserves I (f m)) :
    Preserves I (get >>= f) := fun m hm hi => ends_get_bind (hf m m hm hi)

theorem preserves_pure (a : α) : Preserves I (pure a : Action F α) := (upholds_pure a).preserves

theorem Preserves.attempt {x : Action F α} (hx : Preserves I x) : Preserves I (attempt x) := by
  intro m hm hi
  refine (ends_attempt (hx m hm hi)).imp ?_ ?_
  · rintro _ m' (⟨_, _, h⟩ | ⟨_, _, h⟩)
    · exact h
    · exact h
  · rintro _ m' ⟨_, h⟩
    exact h

/-- There is nothing to return to where no call is open. -/
theorem ends_leaveFrame_idle (frameDepth : m.frameDepth = 0) (result : Option Ref) :
    Ends (leaveFrame result) m (fun _ _ => False) fun _ m' => m' = m := by
  refine ends_get_bind (ends_bind (Q := fun _ _ => False) ?_ fun _ _ h => h.elim)
  rw [frameDepth]
  exact ends_throw rfl

/-- A call is opened from a machine without open calls, or by the last caller of the chain. -/
theorem Orderly.afterCall (hm : m.Orderly) (ac : AfterCall m m') : m'.Orderly := by
  cases hm with
  | inCall frameDepth chain =>
    exact .of_progress frameDepth
      ((regime_inCall (fun _ => True) _).afterCall ⟨⟨_, _, chain⟩, trivial⟩ ac trivial).1
  | idle standing =>
    have standard := standing.toStandard
    rcases ac with st | ⟨argc, hargs, op | re⟩
    · exact .idle (standing.within (st.toSteady.within standard))
    · have hd : m.stack.depth - argc - 2 ≤ m.stack.depth := by omega
      have ld := loaded_truncate standard hargs.base_le hd
      rw [← OperandStack.depth_truncate hd] at op
      refine .inCall ?_ (ld.opened op).inCall
      exact standing.frameDepth
    · exact .idle (standing.within (re.within hargs.base_le))

/-- Instructions leave orderly machines. -/
theorem regime_orderly (I : Machine F → Prop) [Lasting I] :
    Regime I (fun m => m.Orderly ∧ I m) fun m => m.Orderly ∧ I m where
  standard := fun hm => hm.1.standard
  holds := fun hm => hm.2
  within := fun hm w hi => ⟨hm.1.within w, hi⟩
  settled := id
  afterCall := fun hm ac hi => ⟨hm.1.afterCall ac, hi⟩
  leaveFrame := by
    rintro m result ⟨hm, hi⟩
    cases hm with
    | idle standing =>
      refine (ends_leaveFrame_idle standing.frameDepth result).imp (fun _ _ h => h.elim)
        fun _ _ h => ?_
      rw [h]
      exact ⟨.idle standing, hi⟩
    | inCall frameDepth chain =>
      exact ((regime_inCall I _).leaveFrame result ⟨⟨_, _, chain⟩, hi⟩).imp
        (fun _ _ h => ⟨.of_progress frameDepth h.1, h.2⟩)
        fun _ _ h => ⟨.of_progress frameDepth h.1, h.2⟩

variable [HostFunctions F] [Surviving I]

theorem preserves_step (fuel : Nat) : Preserves I (step fuel : Action F Unit) := by
  refine preserves_get_bind fun entry => ?_
  have instruction : Preserves I (do collectGarbage; execute (runHost (callClosure fuel)) :
      Action F Unit) := by
    intro m hm hi
    exact (regime_orderly I).ends_instruction Surviving.collect
      (upholds_callClosure Surviving.collect fuel) ⟨hm, hi⟩
  split
  · refine instruction.attempt.bind fun result => ?_
    cases result with
    | ok _ => exact preserves_pure _
    | error e =>
      exact Upholds.preserves (Upholds.bind (upholds_modify fun _ => rfl)
        fun _ => upholds_setError e)
  · exact preserves_pure _

theorem preserves_run (n : Nat) : Preserves I (run n : Action F Unit) := by
  intro m hm hi
  induction n generalizing m with
  | zero => exact ends_throw ⟨hm, hi⟩
  | succ n ih =>
    have hstep := preserves_step (I := I) n m hm hi
    rw [ends_iff, run]
    by_cases hready : m.state = .ready
    · simp only [hready, if_true]
      cases hs : step n m with
      | ok _ m₁ =>
        obtain ⟨hm₁, hi₁⟩ := hstep.of_ok hs
        exact ends_iff.1 (ih m₁ hm₁ hi₁)
      | error e m₁ => exact hstep.of_error hs
    · simp only [hready, if_false]
      exact ⟨hm, hi⟩

/-! ### Images -/

theorem preserves_prologue (n : Nat) : Preserves I (prologue n : Action F (Option Fault)) := by
  induction n with
  | zero =>
    intro m hm hi
    exact ends_throw ⟨hm, hi⟩
  | succ n ih =>
    refine preserves_get_bind fun m => ?_
    split
    · exact Upholds.preserves (Upholds.bind (upholds_modify fun _ => rfl)
        fun _ => upholds_pure _)
    · refine (preserves_step n).bind fun _ => preserves_get_bind fun m => ?_
      cases m.state with
      | error | done => exact preserves_pure _
      | ready | noCode => exact ih

omit [HostFunctions F] [Surviving I] in
/-- A machine that gets a new image has no open calls. -/
theorem ends_attach [Lasting I] (hm : m.Standard) (hi : I m) (image : Image) :
    Ends (attach image) m (fun _ m' => m'.Idle ∧ I m') fun _ m' => m'.Orderly ∧ I m' := by
  refine ends_bind (Q := fun _ m₁ => m₁.Standard ∧ I m₁) (ends_modify ⟨?_, ?_⟩) fun _ m₁ h₁ =>
    ends_bind (Q := fun _ m₂ => m₂.Standard ∧ I m₂) (ends_modify ⟨?_, ?_⟩) fun _ m₂ h₂ =>
      ends_modify ⟨?_, ?_⟩
  · exact ⟨⟨hm.wellFormed, hm.tidy, hm.floor, hm.ceiling⟩, hm.capacity, hm.functions⟩
  · exact Lasting.congr hi rfl rfl rfl rfl rfl
  · obtain ⟨hm₁, -⟩ := h₁
    exact ⟨⟨hm₁.wellFormed, hm₁.tidy, hm₁.floor, hm₁.ceiling⟩, hm₁.capacity, hm₁.functions⟩
  · exact Lasting.congr h₁.2 rfl rfl rfl rfl rfl
  · obtain ⟨hm₂, -⟩ := h₂
    exact ⟨⟨⟨hm₂.wellFormed, hm₂.tidy, le_rfl, Nat.zero_le _⟩, hm₂.capacity, hm₂.functions⟩, rfl⟩
  · exact Lasting.congr h₂.2 rfl rfl rfl rfl rfl

/-- Attaching an image leaves an orderly machine, also when its prologue fails. -/
theorem preserves_load (fuel : Nat) (bytes : List UInt8) :
    Preserves I (load fuel bytes : Action F (Except ImageError Unit)) := by
  rw [load]
  cases Image.parse bytes with
  | error e => exact preserves_pure _
  | ok image =>
    intro m hm hi
    refine ends_bind (ends_attach hm.standard hi image) fun _ m₁ h₁ => ends_get_bind ?_
    obtain ⟨hm₁, hi₁⟩ := h₁
    have clone : Upholds I (attempt (arrayClone m₁.defaultRecord) : Action F (Except Fault Ref)) :=
      (upholds_of_yields fun hm => yields_arrayClone reliance_arbitrary hm hm.nil).attempt
    refine ends_bind (Q := fun _ m₂ => m₂.Idle ∧ I m₂) ((clone m₁ hm₁.toStandard hi₁).imp
      (fun _ _ h => ⟨hm₁.within h.1, h.2⟩) fun _ _ h => ⟨.idle (hm₁.within h.1), h.2⟩)
      fun result m₂ h₂ => ?_
    obtain ⟨hm₂, hi₂⟩ := h₂
    cases result with
    | error e => exact ends_pure ⟨.idle hm₂, hi₂⟩
    | ok record =>
      have ready : Orderly { m₂ with locals := record, state := .ready } :=
        .idle ⟨⟨⟨hm₂.wellFormed, hm₂.tidy, hm₂.floor, hm₂.ceiling⟩, hm₂.capacity, hm₂.functions⟩,
          hm₂.frameDepth⟩
      refine ends_bind (ends_modify (Q := fun _ m₃ => m₃.Orderly ∧ I m₃)
        ⟨ready, Lasting.congr hi₂ rfl rfl rfl rfl rfl⟩) fun _ m₃ h₃ => ?_
      refine (preserves_prologue fuel).bind (fun e => ?_) m₃ h₃.1 h₃.2
      cases e with
      | some e => exact preserves_pure _
      | none => exact preserves_pure _

/-! ### Requests -/

/-- What host code may ask of a machine. -/
inductive Request where
  /-- Attach an image. -/
  | load (bytes : List UInt8)
  /-- Execute an instruction, -/
  | step
  /-- or all of them. -/
  | run
  /-- Call a global function, -/
  | functionCall (name : NameId) (args : List Ref)
  /-- or a closure. -/
  | callClosure (closure : Ref) (args : List Ref)
  /-- Put a payload in the inbox. -/
  | receive (payload : List UInt8)
  /-- Handle what is in the inbox. -/
  | processInbox
  /-- Announce the membership in swarms. -/
  | processOutbox
  /-- Take messages from the outbox, or put some there. -/
  | changeOutbox (f : Outbox → Outbox)
  /-- Leave the error state. -/
  | clearError
  /-- Say who is told of faults. -/
  | setReceiver (receiver : Receiver)
  /-- Keep an object, -/
  | pin (r : Ref)
  /-- or let it go. -/
  | unpin (r : Ref)
  /-- Forget the neighbors, -/
  | resetNeighbors
  /-- or see one. -/
  | addNeighbor (s : Sighting)
  /-- Make an object that is no table, -/
  | alloc (v : Value)
  /-- or a table, on the stack. -/
  | pushTable
  /-- Put an object on the stack, -/
  | push (r : Ref)
  /-- or take one off. -/
  | pop
  /-- Read an entry of a table, -/
  | field (t : Ref) (name : NameId)
  /-- or set it. -/
  | setField (t : Ref) (name : NameId) (r : Ref)
  /-- Read a global, -/
  | global (name : NameId)
  /-- or set it. -/
  | setGlobal (name : NameId) (r : Ref)
  /-- Return nil from the current call, -/
  | ret0
  /-- or what is on top of the stack. -/
  | ret1

/-- What a request does. Its answer does not matter here. -/
def Request.perform (fuel : Nat) : Request → Action F Unit
  | .load bytes => do let _ ← Machine.load fuel bytes
  | .step => Machine.step fuel
  | .run => Machine.run fuel
  | .functionCall name args => do let _ ← Machine.functionCall fuel name args
  | .callClosure closure args => do let _ ← Machine.callClosure fuel closure args
  | .receive payload => Machine.receive payload
  | .processInbox => Machine.processInbox fuel
  | .processOutbox => Machine.processOutbox
  | .changeOutbox f => modify fun m => { m with outbox := f m.outbox }
  | .clearError => Machine.clearError
  | .setReceiver receiver => modify fun m => { m with receiver }
  | .pin r => Machine.pin r
  | .unpin r => Machine.unpin r
  | .resetNeighbors => Machine.resetNeighbors
  | .addNeighbor s => do let _ ← Machine.addNeighbor s
  | .alloc v => do let _ ← Machine.alloc v
  | .pushTable => do let _ ← Machine.pushTable
  | .push r => Machine.push r
  | .pop => do let _ ← Machine.pop
  | .field t name => do let _ ← Machine.field t name
  | .setField t name r => Machine.setField t name r
  | .global name => do let _ ← Machine.global name
  | .setGlobal name r => Machine.setGlobal name r
  | .ret0 => Machine.ret0
  | .ret1 => Machine.ret1

/-- Several requests, one after the other. -/
def performAll (fuel : Nat) : List Request → Action F Unit
  | [] => pure ()
  | q :: rest => do
    q.perform fuel
    performAll fuel rest

/-- The machines that host code can reach, with depths that fit in sixteen bits and without
functions of its own. A request may answer or fault; what runs out of fuel is not over. -/
inductive Reached : Machine F → Prop
  /-- A new machine. -/
  | start {m : Machine F} (hm : m.New) : Reached m
  /-- A request that answers. -/
  | answered {m m' : Machine F} (before : Reached m) (fuel : Nat) (q : Request)
    (hq : q.perform fuel m = .ok () m') : Reached m'
  /-- A request that faults. -/
  | faulted {m m' : Machine F} (before : Reached m) (fuel : Nat) (q : Request) (e : Fault)
    (hq : q.perform fuel m = .error (.fault e) m') : Reached m'

/-- Requests that neither attach an image, nor execute instructions of their own, nor have to do
with messages that come in or with faults. -/
def Request.isQuiet : Request → Bool
  | .load _ | .step | .run | .functionCall _ _ | .receive _ | .processInbox | .clearError => false
  | _ => true

omit [Surviving I] in
/-- Quiet requests are work of host code, or a call. -/
theorem Request.leads_of_isQuiet {R : Machine F → Machine F → Prop} [Roaming R] {fuel : Nat}
    (hcall : ∀ closure args, Leads R (Machine.callClosure fuel closure args)) {q : Request}
    (hq : q.isQuiet = true) : Leads R (q.perform fuel : Action F Unit) := by
  cases q with
  | callClosure closure args => exact (hcall closure args).discard
  | processOutbox => exact leads_processOutbox
  | changeOutbox | setReceiver | pin | resetNeighbors => exact leads_modify fun _ => rfl
  | unpin r => exact leads_modify fun _ => by split <;> rfl
  | addNeighbor s =>
    exact Leads.discard (leads_get_bind fun _ => Leads.bind (leads_modify fun _ => rfl)
      fun _ => leads_pure _)
  | alloc v => exact (leads_alloc v).discard
  | pushTable => exact leads_pushTable.discard
  | push r => exact leads_push r
  | pop => exact leads_pop.discard
  | field t name => exact (leads_field t name).discard
  | setField t name r => exact leads_setField t name r
  | global name => exact Leads.discard (leads_get_bind fun _ => leads_field _ name)
  | setGlobal name r => exact leads_get_bind fun _ => leads_setField _ name r
  | ret0 => exact leads_leaveFrame none
  | ret1 => exact leads_ret1
  | _ => cases hq

/-- Requests that bring no message and handle none. -/
def Request.isSilent : Request → Bool
  | .receive _ | .processInbox => false
  | _ => true

theorem Request.preserves_perform_of (fuel : Nat) (q : Request)
    (hreceive : ∀ payload, q = .receive payload →
      Upholds I (Machine.receive payload : Action F Unit))
    (hprocess : q = .processInbox → Upholds I (Machine.processInbox fuel : Action F Unit)) :
    Preserves I (q.perform fuel : Action F Unit) := by
  cases q with
  | load bytes => exact (preserves_load fuel bytes).bind fun _ => preserves_pure _
  | step => exact preserves_step fuel
  | run => exact preserves_run fuel
  | functionCall name args => exact (upholds_functionCall fuel name args).preserves_discard
  | callClosure closure args =>
    exact (upholds_callClosure Surviving.collect fuel closure args).preserves_discard
  | receive payload => exact (hreceive payload rfl).preserves
  | processInbox => exact (hprocess rfl).preserves
  | processOutbox => exact upholds_processOutbox.preserves
  | changeOutbox f => exact Upholds.preserves (upholds_modify fun _ => rfl)
  | clearError => exact Upholds.preserves (upholds_modify fun _ => by split <;> rfl)
  | setReceiver receiver => exact Upholds.preserves (upholds_modify fun _ => rfl)
  | pin r => exact Upholds.preserves (upholds_modify fun _ => rfl)
  | unpin r => exact Upholds.preserves (upholds_modify fun _ => by split <;> rfl)
  | resetNeighbors => exact Upholds.preserves (upholds_modify fun _ => rfl)
  | addNeighbor s =>
    exact Upholds.preserves_discard (upholds_get_bind fun m =>
      Upholds.bind (upholds_modify fun _ => rfl) fun _ => upholds_pure _)
  | alloc v => exact (upholds_alloc v).preserves_discard
  | pushTable =>
    exact (upholds_tableNew.bind fun _ => (upholds_push _).bind fun _ =>
      upholds_pure _).preserves_discard
  | push r => exact (upholds_push r).preserves
  | pop => exact upholds_pop.preserves_discard
  | field t name => exact (upholds_field t name).preserves_discard
  | setField t name r => exact (upholds_setField t name r).preserves
  | global name => exact (upholds_get_bind fun _ => upholds_field _ name).preserves_discard
  | setGlobal name r => exact (upholds_get_bind fun _ => upholds_setField _ name r).preserves
  | ret0 => exact fun _ hm hi => (regime_orderly I).leaveFrame none ⟨hm, hi⟩
  | ret1 => exact fun _ hm hi => (regime_orderly I).ends_ret1 ⟨hm, hi⟩

theorem Request.preserves_perform_of_isSilent (fuel : Nat) {q : Request}
    (hq : q.isSilent = true) : Preserves I (q.perform fuel : Action F Unit) := by
  refine q.preserves_perform_of fuel ?_ ?_
  · rintro payload rfl
    cases hq
  · rintro rfl
    cases hq

omit [Surviving I] in
theorem Request.preserves_perform [Enduring I] (fuel : Nat) (q : Request) :
    Preserves I (q.perform fuel : Action F Unit) :=
  q.preserves_perform_of fuel (fun payload _ => Enduring.receive payload)
    fun _ => upholds_processInbox fuel

omit [Surviving I] in
/-- Requests that answer, one after the other. -/
theorem Reached.performAll {fuel : Nat} {qs : List Request} (hm : Reached m)
    (hq : Machine.performAll fuel qs m = .ok () m') : Reached m' := by
  induction qs generalizing m with
  | nil =>
    cases hq
    exact hm
  | cons q qs ih =>
    have hbind : Machine.performAll fuel (q :: qs) m
        = EStateM.bind (q.perform fuel) (fun _ => Machine.performAll fuel qs) m := rfl
    rw [hbind, EStateM.bind] at hq
    cases hs : q.perform fuel m with
    | error e m₁ =>
      rw [hs] at hq
      cases hq
    | ok _ m₁ =>
      rw [hs] at hq
      exact ih (hm.answered fuel q hs) hq

omit [Surviving I] in
/-- **What endures is true of every machine that host code can reach,** if it is true of every new
one. -/
theorem Reached.holds [Enduring I] (hI : ∀ {m}, m.New → I m) (hm : Reached m) : m.Orderly ∧ I m := by
  induction hm with
  | start hm => exact ⟨.idle hm.toIdle, hI hm⟩
  | answered _ fuel q hq ih => exact (q.preserves_perform fuel _ ih.1 ih.2).of_ok hq
  | faulted _ fuel q e hq ih => exact (q.preserves_perform fuel _ ih.1 ih.2).of_error hq

omit [Surviving I] in
theorem Reached.orderly (hm : Reached m) : m.Orderly :=
  (Reached.holds (I := fun _ => True) (fun _ => trivial) hm).1

omit [Surviving I] in
/-- Machines that host code can reach are sound. -/
theorem Reached.sound (hm : Reached m) : m.Sound := hm.orderly.standard.toSound

end Machine

end SwarmVm
