import SwarmVm.Machine.Inbox
import SwarmVm.Proofs.Machine.HostCalls
import SwarmVm.Proofs.Messages.RoundTrip

/-!
# Messages and global functions

What host code does with a machine between two instructions is confined like the host functions: a
received message is put in the inbox, waiting messages are handled one after the other, and global
functions are called. Each of these may call closures of the script, and may fail.

A condition that lasts may be ended by a collection, or by a message that comes or goes, since these
change the inbox and what it owns. If it is not, it survives, or endures.

## Main definitions

* `Machine.Surviving` — conditions that collections do not end either
* `Machine.Enduring` — conditions that receiving and handling messages do not end either

## Main results

* `Machine.confined_receive`, `Machine.confined_drainInbox` — receiving and handling messages
* `Machine.upholds_dispatch` — handling a message does not end a condition that is patient
* `Machine.upholds_processOutbox` — sending
* `Machine.upholds_functionCall` — global functions
-/

namespace SwarmVm

/-- Tables are not sent, so none is received. -/
theorem Wire.not_table_of_decode {bytes : List UInt8} {message : Message Value} {v : Value}
    (hd : Wire.decode? bytes = some message) (hv : message.payload? = some v) (t : TableValue) :
    v ≠ .table t := by
  obtain ⟨-, -, -, -, hs, -⟩ := Wire.exists_reads_of_decode? hd
  rintro rfl
  exact (hs _ hv).1 rfl

namespace Machine

open Heap (reliance_arbitrary)

variable {F α : Type} {I : Machine F → Prop}

/-! ### Faults -/

theorem upholds_setError [Lasting I] (e : Fault) : Upholds I (setError e : Action F Unit) := by
  refine Upholds.bind (upholds_modify fun _ => rfl) fun _ => upholds_get_bind fun m => ?_
  split
  · exact upholds_emit _
  · exact upholds_pure _

section Patient

variable [Patient I]

/-! ### Receiving and sending -/

theorem confined_release (message : Message Ref) : Confined (release message : Action F Unit) := by
  rw [release]
  cases message.payload? with
  | some r => exact confined_setPermanent r false
  | none => exact confined_pure _

theorem confined_payloadObject {bytes : List UInt8} {message : Message Value}
    (hd : Wire.decode? bytes = some message) :
    Confined (payloadObject message : Action F Ref) := by
  rw [payloadObject]
  cases hv : message.payload? with
  | none => exact confined_get_bind fun _ => confined_pure _
  | some v =>
    refine Confined.bind ?_ fun r => (confined_setPermanent r true).bind fun _ => confined_pure _
    exact confined_of_yields fun hm =>
      yields_allocValue reliance_arbitrary hm (Wire.not_table_of_decode hd hv) fun _ _ _ _ => hm.nil

theorem confined_receive (payload : List UInt8) : Confined (receive payload : Action F Unit) := by
  rw [receive]
  cases hd : Wire.decode? payload with
  | none => exact (upholds_emit _).confined
  | some message =>
    refine (confined_payloadObject hd).bind fun r => confined_get_bind fun m => ?_
    obtain ⟨evicted, inbox⟩ := m.inbox.push (message.withPayload r)
    refine Confined.bind (confined_modify fun _ => rfl) fun _ => ?_
    cases evicted with
    | some lost => exact confined_release lost
    | none => exact confined_pure _

theorem upholds_processOutbox : Upholds I (processOutbox : Action F Unit) := by
  refine upholds_get_bind fun m => ?_
  obtain ⟨announcement, membership⟩ := m.membership.tick m.robot
  refine Upholds.bind (upholds_adjust fun _ => rfl) fun _ => ?_
  cases announcement with
  | some message => exact upholds_send message
  | none => exact upholds_pure _

/-! ### Handling -/

theorem upholds_versionTable (v : Version) : Upholds I (versionTable v : Action F Ref) :=
  upholds_tableNew.bind fun _ => (upholds_alloc _).bind fun _ => (upholds_setField _ _ _).bind
    fun _ => (upholds_setField _ _ _).bind fun _ => (upholds_alloc _).bind fun _ =>
      (upholds_setField _ _ _).bind fun _ => upholds_pure _

theorem upholds_intField (t : Ref) (name : Builtin) : Upholds I (intField t name : Action F Int) :=
  (upholds_field _ _).bind fun _ => upholds_get_bind fun _ => (upholds_orFail _ _).bind
    fun _ => upholds_pure _

theorem upholds_readVersion (t : Ref) : Upholds I (readVersion t : Action F Version) :=
  (upholds_expectTable _).bind fun _ => (upholds_intField _ _).bind fun _ =>
    (upholds_intField _ _).bind fun _ => (upholds_field _ _).bind fun _ =>
      (upholds_require _ _).bind fun _ => (upholds_require _ _).bind fun _ => upholds_pure _

theorem upholds_lossToReport (here winner : Version) :
    Upholds I (lossToReport here winner : Action F (Option (Ref × Ref))) := by
  refine upholds_get_bind fun m => ?_
  split
  · split
    · exact (upholds_versionTable here).bind fun _ => upholds_pure _
    · exact upholds_pure _
  · exact upholds_pure _

theorem upholds_receiveNew (op : StigmergyOp) (key : NameId) (there : Version) :
    Upholds I (receiveNew op key there : Action F Unit) := by
  refine upholds_get_bind fun m => ?_
  split
  · exact upholds_pure _
  · split
    · exact upholds_emit _
    · exact (upholds_insertVersion _ _).bind fun _ => upholds_get_bind fun _ =>
        upholds_sendEntry _ _ _

section Handling

variable {call : Caller F} (hcall : ∀ closure args, Upholds I (call closure args))

include hcall

theorem upholds_deliverBroadcast (robot : RobotId) (topic payload : Ref) :
    Upholds I (deliverBroadcast call robot topic payload) := by
  refine upholds_get_bind fun _ => (upholds_touch _).bind fun _ => upholds_get_bind fun m => ?_
  split
  · exact upholds_pure _
  · split
    · exact (upholds_alloc _).bind fun _ => (hcall _ _).bind fun _ => upholds_pure _
    · exact upholds_pure _

theorem upholds_chooseWinner (key : Ref) (here there : Version) :
    Upholds I (chooseWinner call key here there) := by
  refine upholds_get_bind fun m => ?_
  cases m.stigmergy.onConflict with
  | some callback =>
    exact (upholds_versionTable _).bind fun _ => (upholds_versionTable _).bind fun _ =>
      (hcall _ _).bind fun _ => upholds_readVersion _
  | none => exact upholds_pure _

theorem upholds_settleConflict (key : NameId) (position : Nat) (here there : Version) :
    Upholds I (settleConflict call key position here there) := by
  refine (upholds_alloc _).bind fun _ => (upholds_chooseWinner hcall _ _ _).bind fun _ =>
    (upholds_emit _).bind fun _ => (upholds_lossToReport _ _).bind fun loss =>
      (upholds_storeVersion _ _).bind fun _ => (upholds_sendEntry _ _ _).bind fun _ => ?_
  cases loss with
  | some loss => exact (hcall _ _).bind fun _ => upholds_pure _
  | none => exact upholds_pure _

theorem upholds_receiveStigmergy (op : StigmergyOp) (key : NameId) (there : Version) :
    Upholds I (receiveStigmergy call op key there) := by
  refine upholds_get_bind fun m => ?_
  dsimp only
  split
  · exact upholds_receiveNew op key there
  · split
    · exact upholds_pure _
    · split
      · exact (upholds_storeVersion _ _).bind fun _ => upholds_sendEntry _ _ _
      · split
        · exact upholds_settleConflict hcall _ _ _ _
        · split
          · exact upholds_sendEntry _ _ _
          · exact upholds_pure _

theorem upholds_dispatch (message : Message Ref) : Upholds I (dispatch call message) := by
  cases message with
  | broadcast robot topic r =>
    refine upholds_get_bind fun m => ?_
    split
    · exact (upholds_alloc _).bind fun _ => upholds_deliverBroadcast hcall _ _ _
    · exact upholds_emit _
  | stigmergy op robot key r clock => exact upholds_receiveStigmergy hcall _ _ _
  | swarm op robot clock swarms =>
    refine upholds_get_bind fun m => ?_
    split
    · obtain ⟨membership, events⟩ := m.membership.apply op robot clock swarms
      exact upholds_adjust fun _ => rfl
    · exact upholds_pure _

end Handling

end Patient

variable [HostFunctions F]

theorem confined_drainInbox (n : Nat) : Confined (drainInbox n : Action F Unit) := by
  induction n with
  | zero =>
    intro m hm
    exact ends_throw (.refl hm)
  | succ n ih =>
    refine confined_get_bind fun m => ?_
    obtain ⟨message?, inbox⟩ := m.inbox.pop
    cases message? with
    | none => exact confined_pure _
    | some message =>
      have handled : Confined (attempt (dispatch (callClosure n) message) :
          Action F (Except Fault Unit)) :=
        (upholds_dispatch (fun closure args => (confined_callClosure n closure args).upholds_true)
          message).attempt.confined
      refine Confined.bind (confined_modify fun _ => rfl) fun _ => handled.bind fun result =>
        (confined_release message).bind fun _ => ?_
      cases result with
      | ok _ => exact ih
      | error e => exact (upholds_setError e).confined

/-! ### Conditions that endure -/

/-- Collections do not end the condition either. -/
class Surviving (I : Machine F → Prop) : Prop extends Lasting I where
  /-- Collections. -/
  collect : Upholds I (collectGarbage : Action F Unit)

/-- Nothing that host code asks of a machine ends the condition. -/
class Enduring (I : Machine F → Prop) : Prop extends Surviving I where
  /-- A message is put in the inbox, -/
  receive : ∀ payload, Upholds I (receive payload : Action F Unit)
  /-- and those in the inbox are handled. -/
  drain : ∀ n, Upholds I (drainInbox n : Action F Unit)

instance enduring_true : Enduring (fun _ : Machine F => True) where
  collect := confined_collectGarbage.upholds_true
  receive payload := (confined_receive payload).upholds_true
  drain n := (confined_drainInbox n).upholds_true

theorem upholds_processInbox [Enduring I] (fuel : Nat) :
    Upholds I (processInbox fuel : Action F Unit) := by
  refine upholds_get_bind fun m => ?_
  cases m.state with
  | ready | done => exact Enduring.drain fuel
  | noCode | error => exact upholds_pure _

/-! ### Global functions -/

variable [Surviving I]

theorem upholds_callGlobal (fuel : Nat) (name : NameId) (args : List Ref) :
    Upholds I (callGlobal fuel name args : Action F Ref) :=
  (upholds_get_bind fun _ => upholds_field _ name).bind fun _ => upholds_get_bind fun _ =>
    (upholds_require _ _).bind fun _ => upholds_callClosure Surviving.collect _ _ _

theorem upholds_functionCall (fuel : Nat) (name : NameId) (args : List Ref) :
    Upholds I (functionCall fuel name args : Action F Ref) := by
  refine upholds_get_bind fun m => ?_
  cases m.state with
  | noCode | error => exact upholds_fail _
  | ready | done =>
    refine (upholds_callGlobal fuel name args).attempt.bind fun result => ?_
    cases result with
    | ok r => exact upholds_pure r
    | error e =>
      exact Upholds.bind (upholds_modify fun _ => rfl) fun _ => (upholds_setError e).bind
        fun _ => upholds_fail e

end Machine

end SwarmVm
