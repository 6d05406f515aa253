import SwarmVm.Proofs.Machine.Control

/-!
# Host functions and instructions on the control

Host functions leave the control alone until they return, and so does what handles a message, as
long as the calls that they make do so. Instructions move the program counter. Here they are all
gone through, for any relation that is lenient or, where there are returns and jumps, roaming. No
condition is put on the machine: neither the heap nor the bookkeeping of calls has to be in order.

## Main results

* `Machine.leads_leaveFrame`, `Machine.leads_call` — returns and calls
* `Machine.leads_runPrimitive` — host functions
* `Machine.leads_dispatch` — messages
* `Machine.leads_execute`, `Machine.leads_runFrames` — instructions
-/

namespace SwarmVm

namespace Machine

variable {F : Type} {R : Machine F → Machine F → Prop} {call : Caller F}

/-! ### Neighbors -/

section Lenient

variable [Lenient R]

theorem leads_describeLocals : ∀ n i, Leads R (describeLocals i n : Action F (List String))
  | 0, _ => leads_pure []
  | n + 1, i => (leads_localAt _).bind fun _ => leads_get_bind fun _ =>
    (leads_describeLocals n (i + 1)).bind fun _ => leads_pure _

theorem leads_sensedValue (robot : RobotId) : Leads R (sensedValue robot : Action F Ref) := by
  have number : ∀ t name n, Leads R (setNumber t name n : Action F Unit) := fun t _ _ =>
    (leads_alloc _).bind fun _ => leads_setField t _ _
  refine leads_get_bind fun m => ?_
  cases m.sensors.get? robot with
  | some s =>
    exact (leads_onHeap _).bind fun _ => (number _ _ _).bind fun _ => (number _ _ _).bind
      fun _ => (number _ _ _).bind fun _ => leads_pure _
  | none => exact leads_get_bind fun _ => leads_pure _

theorem leads_viewValue (robot : RobotId) (stored : Option Ref) :
    Leads R (viewValue robot stored : Action F Ref) := by
  cases stored with
  | some r => exact leads_pure r
  | none => exact leads_sensedValue robot

theorem leads_entriesOf (view : View) :
    Leads R (entriesOf view : Action F (List (RobotId × Option Ref))) := by
  cases view with
  | sensed => exact leads_get_bind fun _ => leads_pure _
  | derived t => exact (leads_touch t).bind fun _ => leads_get_bind fun _ => leads_pure _

theorem leads_pushDerived : Leads R (pushDerived : Action F Ref) :=
  (leads_methodTable _).bind fun _ => (leads_push _).bind fun _ => leads_pure _

theorem leads_setRobotEntry (t : Ref) (robot : RobotId) (r : Ref) :
    Leads R (setRobotEntry t robot r : Action F Unit) :=
  (leads_alloc _).bind fun _ => leads_tableSet t _ r

theorem leads_derivedView : Leads R (derivedView : Action F View) :=
  (leads_localAt _).bind fun _ => leads_get_bind fun _ => (leads_require _ _).bind
    fun _ => leads_pure _

theorem leads_keepKinship (kin : Bool) (result : Ref) :
    ∀ l, Leads R (keepKinship kin result l : Action F Unit)
  | [] => leads_pure ()
  | (robot, stored) :: rest => by
    refine leads_get_bind fun m => ?_
    have ih := leads_keepKinship kin result rest
    simp only
    split
    · exact (leads_viewValue robot stored).bind fun _ => (leads_setRobotEntry _ _ _).bind
        fun _ => ih
    · exact ih

section Loops

variable (hcall : ∀ closure args, Leads R (call closure args))

include hcall

theorem leads_eachRobot (callback : Ref) : ∀ l, Leads R (eachRobot call callback l)
  | [] => leads_pure ()
  | (robot, stored) :: rest => (leads_viewValue robot stored).bind fun _ =>
    (leads_alloc _).bind fun _ => (hcall _ _).bind fun _ => leads_eachRobot callback rest

theorem leads_mapRobots (callback result : Ref) : ∀ l, Leads R (mapRobots call callback result l)
  | [] => leads_pure ()
  | (robot, stored) :: rest => (leads_viewValue robot stored).bind fun _ =>
    (leads_alloc _).bind fun _ => (hcall _ _).bind fun _ => (leads_setRobotEntry _ _ _).bind
      fun _ => leads_mapRobots callback result rest

theorem leads_filterRobots (callback result : Ref) :
    ∀ l, Leads R (filterRobots call callback result l)
  | [] => leads_pure ()
  | (robot, stored) :: rest => by
    refine (leads_viewValue robot stored).bind fun _ => (leads_alloc _).bind fun _ =>
      (leads_push _).bind fun _ => (hcall _ _).bind fun _ => leads_pop.bind fun _ =>
        leads_get_bind fun _ => ?_
    have ih := leads_filterRobots callback result rest
    simp only
    split
    · exact (leads_setRobotEntry _ _ _).bind fun _ => ih
    · exact ih

theorem leads_reduceRobots (callback : Ref) : ∀ l, Leads R (reduceRobots call callback l)
  | [] => leads_pure ()
  | (robot, stored) :: rest => (leads_viewValue robot stored).bind fun _ =>
    (leads_alloc _).bind fun _ => (leads_peek _).bind fun _ => (hcall _ _).bind fun _ =>
      (leads_setPeek _ _).bind fun _ => leads_reduceRobots callback rest

end Loops

/-! ### Swarms -/

theorem leads_swarmOfInt (i : Int16) : Leads R (swarmOfInt i : Action F UInt8) :=
  (leads_require _ _).bind fun _ => leads_pure _

theorem leads_selfSwarm : Leads R (selfSwarm : Action F UInt8) :=
  (leads_localAt _).bind fun _ => (leads_expectTable _).bind fun _ => (leads_field _ _).bind
    fun _ => leads_get_bind fun _ => (leads_orFail _ _).bind fun _ => leads_swarmOfInt _

theorem leads_setMembership (member : Bool) : Leads R (setMembership member : Action F Unit) := by
  refine leads_selfSwarm.bind fun swarm => leads_get_bind fun m => ?_
  obtain ⟨announcement, membership⟩ := m.membership.setMember m.robot swarm member
  refine Leads.bind (leads_modify fun _ => rfl) fun _ => ?_
  cases announcement with
  | some message => exact leads_send _
  | none => exact leads_pure _

/-! ### Messages -/

theorem leads_versionTable (v : Version) : Leads R (versionTable v : Action F Ref) :=
  (leads_onHeap _).bind fun _ => (leads_alloc _).bind fun _ => (leads_setField _ _ _).bind
    fun _ => (leads_setField _ _ _).bind fun _ => (leads_alloc _).bind fun _ =>
      (leads_setField _ _ _).bind fun _ => leads_pure _

theorem leads_readVersion (t : Ref) : Leads R (readVersion t : Action F Version) := by
  have intField : ∀ name, Leads R (intField t name : Action F Int) := fun _ =>
    (leads_field _ _).bind fun _ => leads_get_bind fun _ => (leads_orFail _ _).bind
      fun _ => leads_pure _
  exact (leads_expectTable _).bind fun _ => (intField _).bind fun _ => (intField _).bind
    fun _ => (leads_field _ _).bind fun _ => (leads_require _ _).bind fun _ =>
      (leads_require _ _).bind fun _ => leads_pure _

theorem leads_lossToReport (here winner : Version) :
    Leads R (lossToReport here winner : Action F (Option (Ref × Ref))) := by
  refine leads_get_bind fun m => ?_
  split
  · split
    · exact (leads_versionTable here).bind fun _ => leads_pure _
    · exact leads_pure _
  · exact leads_pure _

theorem leads_receiveNew (op : StigmergyOp) (key : NameId) (there : Version) :
    Leads R (receiveNew op key there : Action F Unit) := by
  refine leads_get_bind fun m => ?_
  split
  · exact leads_pure _
  · split
    · exact leads_emit _
    · exact (leads_insertVersion _ _).bind fun _ => leads_get_bind fun _ => leads_sendEntry _ _ _

section Handling

variable (hcall : ∀ closure args, Leads R (call closure args))

include hcall

theorem leads_deliverBroadcast (robot : RobotId) (topic payload : Ref) :
    Leads R (deliverBroadcast call robot topic payload) := by
  refine leads_get_bind fun _ => (leads_touch _).bind fun _ => leads_get_bind fun m => ?_
  split
  · exact leads_pure _
  · split
    · exact (leads_alloc _).bind fun _ => (hcall _ _).bind fun _ => leads_pure _
    · exact leads_pure _

theorem leads_chooseWinner (key : Ref) (here there : Version) :
    Leads R (chooseWinner call key here there) := by
  refine leads_get_bind fun m => ?_
  cases m.stigmergy.onConflict with
  | some callback =>
    exact (leads_versionTable _).bind fun _ => (leads_versionTable _).bind fun _ =>
      (hcall _ _).bind fun _ => leads_readVersion _
  | none => exact leads_pure _

theorem leads_settleConflict (key : NameId) (position : Nat) (here there : Version) :
    Leads R (settleConflict call key position here there) := by
  refine (leads_alloc _).bind fun _ => (leads_chooseWinner hcall _ _ _).bind fun _ =>
    (leads_emit _).bind fun _ => (leads_lossToReport _ _).bind fun loss =>
      (leads_storeVersion _ _).bind fun _ => (leads_sendEntry _ _ _).bind fun _ => ?_
  cases loss with
  | some loss => exact (hcall _ _).bind fun _ => leads_pure _
  | none => exact leads_pure _

theorem leads_receiveStigmergy (op : StigmergyOp) (key : NameId) (there : Version) :
    Leads R (receiveStigmergy call op key there) := by
  refine leads_get_bind fun m => ?_
  dsimp only
  split
  · exact leads_receiveNew op key there
  · split
    · exact leads_pure _
    · split
      · exact (leads_storeVersion _ _).bind fun _ => leads_sendEntry _ _ _
      · split
        · exact leads_settleConflict hcall _ _ _ _
        · split
          · exact leads_sendEntry _ _ _
          · exact leads_pure _

theorem leads_dispatch (message : Message Ref) : Leads R (dispatch call message) := by
  cases message with
  | broadcast robot topic r =>
    refine leads_get_bind fun m => ?_
    split
    · exact (leads_alloc _).bind fun _ => leads_deliverBroadcast hcall _ _ _
    · exact leads_emit _
  | stigmergy op robot key r clock => exact leads_receiveStigmergy hcall _ _ _
  | swarm op robot clock swarms =>
    refine leads_get_bind fun m => ?_
    split
    · obtain ⟨membership, events⟩ := m.membership.apply op robot clock swarms
      exact leads_modify fun _ => rfl
    · exact leads_pure _

end Handling

theorem leads_pushOperands [HostFunctions F] (closure : Ref) (args : List Ref) :
    Leads R (pushOperands closure args : Action F Unit) := by
  have pushes : ∀ l : List Ref, Leads R (l.forM push : Action F Unit) := by
    intro l
    induction l with
    | nil => exact leads_pure _
    | cons r l ih => exact (leads_push r).bind fun _ => ih
  exact leads_get_bind fun _ => (leads_require _ _).bind fun _ => (pushes _).bind fun _ =>
    (leads_alloc _).bind fun _ => (leads_push _).bind fun _ => leads_push _

end Lenient

/-! ### Returns and calls -/

variable [Roaming R]

theorem leads_jump (f : Machine F → UInt16) :
    Leads R (modify fun m : Machine F => { m with pc := f m }) :=
  fun m => ends_modify (Roaming.jump m (f m))

theorem leads_leaveFrame (result : Option Ref) : Leads R (leaveFrame result : Action F Unit) := by
  have clear : ∀ a, Leads R (arrayClear a : Action F Unit) := fun a =>
    (leads_touch a).bind fun _ => Leads.bind (leads_modify fun _ => rfl)
      fun _ => leads_changeHeap _
  refine leads_get_bind fun _ => (leads_require _ _).bind fun _ => leads_get_bind fun _ =>
    (leads_require _ _).bind fun _ => Leads.bind (leads_modify fun _ => rfl) fun _ =>
      leads_popInt.bind fun address => leads_pop.bind fun locals => leads_popInt.bind fun base =>
        leads_get_bind fun _ => (clear _).bind fun _ => Leads.bind (fun m => ends_modify ?_)
          fun _ => leads_get_bind fun _ => leads_push _
  refine Lenient.trans (Roaming.jump m address.toUInt16) (Lenient.same ?_)
  exact ⟨rfl, rfl, rfl, rfl, rfl, rfl⟩

theorem leads_ret1 : Leads R (ret1 : Action F Unit) :=
  leads_get_bind fun _ => (leads_require _ _).bind fun _ => leads_pop.bind
    fun r => leads_leaveFrame (some r)

theorem leads_enter : Leads R (enter : Action F Target) := by
  have openFrame : ∀ argc record base address,
      Leads R (openFrame argc record base address : Action F Unit) := fun _ _ _ _ =>
    Leads.bind (leads_modify fun _ => rfl) fun _ => (leads_push _).bind fun _ => leads_get_bind
      fun _ => (leads_push _).bind fun _ => (leads_push _).bind fun _ => leads_modify fun _ => rfl
  exact (leads_peek _).bind fun _ => (leads_peek _).bind fun _ => leads_get_bind fun _ =>
    (leads_orFail _ _).bind fun _ => (onlyHeap_argumentCount _).leads.bind fun _ =>
      (onlyHeap_checkTarget _).leads.bind fun _ => leads_get_bind fun _ => (leads_require _ _).bind
        fun _ => leads_get_bind fun _ => (leads_arrayClone _).bind fun _ =>
          (onlyHeap_pushArguments _ _ _).leads.bind fun _ => leads_get_bind fun _ =>
            (leads_alloc _).bind fun _ => leads_get_bind fun _ => (leads_alloc _).bind fun _ =>
              (openFrame _ _ _ _).bind fun _ => leads_pure _

theorem leads_call {host : UInt16 → Action F Unit} (hhost : ∀ id, Leads R (host id)) :
    Leads R (Machine.call host) := by
  refine leads_enter.bind fun target => ?_
  cases target with
  | code address => exact leads_jump _
  | host id =>
    exact leads_get_bind fun _ => (hhost id).bind fun _ => leads_get_bind fun _ =>
      leads_require _ _

/-! ### Host functions -/

theorem leads_neighborsGet (view : View) : Leads R (neighborsGet view : Action F Unit) := by
  refine (leads_requireArgs _).bind fun _ => (leads_intArg _).bind fun i => ?_
  have result : ∀ r, Leads R (do push r; ret1 : Action F Unit) := fun r =>
    (leads_push r).bind fun _ => leads_ret1
  cases view with
  | sensed => exact (leads_sensedValue _).bind result
  | derived t => exact (leads_localAt _).bind fun key => (leads_tableGet t key).bind result

theorem leads_stigmergyPut : Leads R (stigmergyPut : Action F Unit) := by
  refine (leads_requireArgs _).bind fun _ => (leads_stringArg _).bind fun key =>
    (leads_localAt _).bind fun _ => leads_get_bind fun m => ?_
  cases m.stigmergy.position? key with
  | some position =>
    exact (leads_storeVersion _ _).bind fun _ => (leads_sendEntry _ _ _).bind
      fun _ => leads_leaveFrame _
  | none =>
    exact (leads_require _ _).bind fun _ => (leads_insertVersion _ _).bind fun _ =>
      leads_get_bind fun _ => (leads_sendEntry _ _ _).bind fun _ => leads_leaveFrame _

theorem leads_stigmergyGet : Leads R (stigmergyGet : Action F Unit) := by
  refine (leads_requireArgs _).bind fun _ => (leads_stringArg _).bind fun key =>
    leads_get_bind fun m => ?_
  cases m.stigmergy.position? key with
  | some position =>
    exact (leads_sendEntry _ _ _).bind fun _ => (leads_push _).bind fun _ => leads_ret1
  | none => exact (leads_send _).bind fun _ => leads_pushNil.bind fun _ => leads_ret1

section Primitives

variable (hcall : ∀ closure args, Leads R (call closure args))

include hcall

theorem leads_swarmExec : Leads R (swarmExec call) := by
  refine (leads_requireArgs _).bind fun _ => (leads_closureArg _).bind fun _ =>
    leads_selfSwarm.bind fun _ => leads_get_bind fun _ => ?_
  simp only
  split
  · exact (hcall _ _).bind fun _ => leads_leaveFrame _
  · exact leads_leaveFrame _

theorem leads_neighborsForeach (view : View) : Leads R (neighborsForeach call view) :=
  (leads_requireArgs _).bind fun _ => (leads_closureArg _).bind fun _ =>
    (leads_entriesOf view).bind fun l => (leads_eachRobot hcall _ l).bind
      fun _ => leads_leaveFrame _

theorem leads_neighborsMap (view : View) : Leads R (neighborsMap call view) :=
  (leads_requireArgs _).bind fun _ => (leads_closureArg _).bind fun _ => leads_pushDerived.bind
    fun _ => (leads_entriesOf view).bind fun l => (leads_mapRobots hcall _ _ l).bind
      fun _ => leads_ret1

theorem leads_neighborsFilter (view : View) : Leads R (neighborsFilter call view) :=
  (leads_requireArgs _).bind fun _ => (leads_closureArg _).bind fun _ => leads_pushDerived.bind
    fun _ => (leads_entriesOf view).bind fun l => (leads_filterRobots hcall _ _ l).bind
      fun _ => leads_ret1

theorem leads_neighborsReduce (view : View) : Leads R (neighborsReduce call view) :=
  (leads_requireArgs _).bind fun _ => (leads_closureArg _).bind fun _ => (leads_localAt _).bind
    fun _ => (leads_push _).bind fun _ => (leads_entriesOf view).bind fun l =>
      (leads_reduceRobots hcall _ l).bind fun _ => leads_ret1

theorem leads_runPrimitive (p : Primitive) : Leads R (runPrimitive call p) := by
  have derived : ∀ {f : View → Action F Unit}, (∀ view, Leads R (f view)) →
      Leads R (derivedView >>= f) := leads_derivedView.bind
  have count : ∀ view, Leads R (neighborsCount view : Action F Unit) := fun view =>
    (leads_requireArgs _).bind fun _ => (leads_entriesOf view).bind fun _ =>
      (leads_pushValue _).bind fun _ => leads_ret1
  have kinship : ∀ kin view, Leads R (neighborsKinship kin view : Action F Unit) := fun kin view =>
    (leads_requireArgs _).bind fun _ => leads_pushDerived.bind fun _ => (leads_entriesOf view).bind
      fun l => (leads_keepKinship kin _ l).bind fun _ => leads_ret1
  have ret0 : Leads R (ret0 : Action F Unit) := leads_leaveFrame none
  unfold runPrimitive
  cases p with
  | log =>
    exact leads_get_bind fun _ => (leads_touch _).bind fun _ => leads_get_bind fun _ =>
      (leads_describeLocals _ _).bind fun _ => leads_get_bind fun _ => (leads_emit _).bind
        fun _ => ret0
  | neighborsBroadcast =>
    exact (leads_requireArgs _).bind fun _ => (leads_stringArg _).bind fun _ =>
      (leads_localAt _).bind fun _ => leads_get_bind fun _ => (leads_send _).bind fun _ => ret0
  | neighborsListen =>
    exact (leads_requireArgs _).bind fun _ => (leads_stringArg _).bind fun _ =>
      (leads_localAt _).bind fun _ => (leads_closureArg _).bind fun _ => leads_get_bind fun _ =>
        (leads_tableSet _ _ _).bind fun _ => ret0
  | neighborsIgnore =>
    exact (leads_requireArgs _).bind fun _ => (leads_stringArg _).bind fun _ =>
      (leads_localAt _).bind fun _ => leads_get_bind fun _ => (leads_tableSet _ _ _).bind
        fun _ => ret0
  | neighborsGet => exact leads_neighborsGet _
  | neighborsForeach => exact leads_neighborsForeach hcall _
  | neighborsMap => exact leads_neighborsMap hcall _
  | neighborsReduce => exact leads_neighborsReduce hcall _
  | neighborsFilter => exact leads_neighborsFilter hcall _
  | neighborsCount => exact count _
  | neighborsKin | neighborsNonkin => exact kinship _ _
  | derivedGet => exact derived leads_neighborsGet
  | derivedForeach => exact derived (leads_neighborsForeach hcall)
  | derivedMap => exact derived (leads_neighborsMap hcall)
  | derivedReduce => exact derived (leads_neighborsReduce hcall)
  | derivedFilter => exact derived (leads_neighborsFilter hcall)
  | derivedCount => exact derived count
  | derivedKin | derivedNonkin => exact derived (kinship _)
  | stigmergyCreate =>
    exact (leads_requireArgs _).bind fun _ => (leads_intArg _).bind fun _ => (leads_localAt _).bind
      fun _ => leads_resetStigmergy.bind fun _ => (leads_methodTable _).bind fun _ =>
        (leads_setField _ _ _).bind fun _ => (leads_push _).bind fun _ => leads_ret1
  | stigmergyPut => exact leads_stigmergyPut
  | stigmergyGet => exact leads_stigmergyGet
  | stigmergySize =>
    exact (leads_requireArgs _).bind fun _ => leads_get_bind fun _ => (leads_pushValue _).bind
      fun _ => leads_ret1
  | stigmergyOnconflict | stigmergyOnconflictlost =>
    exact (leads_requireArgs _).bind fun _ => (leads_closureArg _).bind fun _ =>
      Leads.bind (leads_modify fun _ => rfl) fun _ => ret0
  | swarmCreate =>
    exact (leads_requireArgs _).bind fun _ => (leads_intArg _).bind fun _ =>
      (leads_swarmOfInt _).bind fun _ => (leads_localAt _).bind fun _ =>
        (leads_methodTable _).bind fun _ => (leads_setField _ _ _).bind fun _ =>
          (leads_push _).bind fun _ => leads_ret1
  | swarmJoin | swarmLeave =>
    exact (leads_requireArgs _).bind fun _ => (leads_setMembership _).bind fun _ => ret0
  | swarmIn =>
    exact (leads_requireArgs _).bind fun _ => leads_selfSwarm.bind fun _ => leads_get_bind
      fun _ => (leads_pushValue _).bind fun _ => leads_ret1
  | swarmSelect =>
    exact (leads_requireArgs _).bind fun _ => (leads_localAt _).bind fun _ => leads_get_bind
      fun _ => (leads_setMembership _).bind fun _ => ret0
  | swarmExec => exact leads_swarmExec hcall

end Primitives

/-! ### Instructions -/

theorem leads_jumpTo (address : UInt16) : Leads R (jumpTo address : Action F Unit) :=
  leads_get_bind fun _ => (leads_require _ _).bind fun _ => leads_jump _

theorem leads_jumpIf (when : Bool) (address : UInt16) :
    Leads R (jumpIf when address : Action F Unit) := by
  refine leads_pop.bind fun r => leads_get_bind fun m => ?_
  split
  · exact leads_jumpTo address
  · exact leads_pure _

theorem leads_arithmetic (op : Arithmetic) : Leads R (arithmetic op : Action F Unit) := by
  refine leads_popPair.bind fun p => Leads.bind (leads_get_bind fun _ => leads_orFail _ _)
    fun x => Leads.bind (leads_get_bind fun _ => leads_orFail _ _) fun y => ?_
  cases op.apply x y with
  | ok v => exact leads_pushValue v
  | error e => exact leads_throw _

theorem leads_storeLocal (i : UInt16) : Leads R (storeLocal i : Action F Unit) := by
  refine leads_pop.bind fun r => leads_get_bind fun m => (leads_touch _).bind
    fun _ => leads_get_bind fun _ => ?_
  dsimp only
  split
  · exact leads_changeHeap _
  · split
    · exact leads_arrayPush _ _
    · exact leads_throw _

section Executing

variable {host : UInt16 → Action F Unit} (hhost : ∀ id, Leads R (host id))

include hhost

theorem leads_perform (op : Opcode) (operand : UInt16) : Leads R (perform host op operand) := by
  have integer : ∀ r, Leads R (integer r : Action F Int16) := fun _ =>
    leads_get_bind fun _ => leads_orFail _ _
  have bitwise : ∀ op, Leads R (bitwise op : Action F Unit) := fun _ =>
    leads_popPair.bind fun _ => (integer _).bind fun _ => (integer _).bind
      fun _ => leads_pushValue _
  have logic : ∀ combine, Leads R (logic combine : Action F Unit) := fun _ =>
    leads_popPair.bind fun _ => leads_get_bind fun _ => leads_pushValue _
  have compare : ∀ test, Leads R (comparison test : Action F Unit) := fun _ =>
    leads_popPair.bind fun _ => leads_get_bind fun _ => leads_pushValue _
  have string : ∀ r, Leads R (expectString r : Action F Unit) := fun _ =>
    Leads.discard (leads_get_bind fun _ => leads_orFail _ _)
  unfold perform
  cases op with
  | nop | done => exact leads_pure _
  | pushNil => exact leads_pushNil
  | dup => exact (leads_peek _).bind fun _ => leads_push _
  | pop => exact leads_pop.discard
  | ret0 => exact leads_leaveFrame none
  | ret1 => exact leads_ret1
  | add | sub | mul | div | mod | pow => exact leads_arithmetic _
  | unm =>
    exact leads_pop.bind fun _ => Leads.bind (leads_get_bind fun _ => leads_orFail _ _)
      fun _ => leads_pushValue _
  | logicAnd | logicOr => exact logic _
  | logicNot => exact leads_pop.bind fun _ => leads_get_bind fun _ => leads_pushValue _
  | bitAnd | bitOr | shiftLeft | shiftRight => exact bitwise _
  | bitNot => exact leads_pop.bind fun _ => (integer _).bind fun _ => leads_pushValue _
  | eq | neq | gt | gte | lt | lte => exact compare _
  | loadGlobal =>
    exact leads_pop.bind fun _ => (string _).bind fun _ => leads_get_bind fun _ =>
      (leads_tableGet _ _).bind fun _ => leads_push _
  | storeGlobal =>
    exact leads_popPair.bind fun _ => (string _).bind fun _ => leads_get_bind fun _ =>
      leads_tableSet _ _ _
  | pushTable => exact leads_pushTable.discard
  | putField =>
    exact leads_pop.bind fun _ => leads_popPair.bind fun _ => (leads_expectTable _).bind
      fun _ => (leads_bindClosure _ _).bind fun _ => leads_tableSet _ _ _
  | getField =>
    exact leads_popPair.bind fun _ => (leads_expectTable _).bind fun _ =>
      (leads_tableGet _ _).bind fun _ => leads_push _
  | call => exact leads_call hhost
  | pushFloat | pushInt | pushCode => exact leads_pushValue _
  | pushString | pushHost =>
    exact leads_get_bind fun _ => (leads_require _ _).bind fun _ => leads_pushValue _
  | pushLambda =>
    exact leads_get_bind fun _ => (leads_arrayClone _).bind fun _ => leads_pushValue _
  | loadLocal => exact (leads_localAt _).bind fun _ => leads_push _
  | storeLocal => exact leads_storeLocal _
  | jump => exact leads_jumpTo _
  | jumpIfFalse | jumpIfTrue => exact leads_jumpIf _ _

/-- The script may end. -/
theorem leads_execute (hdone : ∀ m : Machine F, R m { m with state := .done }) :
    Leads R (execute host) := by
  refine leads_get_bind fun m => ?_
  cases m.fetch with
  | error e => exact leads_throw _
  | ok p =>
    obtain ⟨op, operand⟩ := p
    refine leads_get_bind fun _ => (leads_emit _).bind fun _ => ?_
    split
    · exact fun m => ends_modify (hdone m)
    · exact (leads_jump _).bind fun _ => leads_perform hhost op _

end Executing

theorem leads_runFrames [HostFunctions F] (hhost : ∀ id, Leads R (runHost call id))
    (hdone : ∀ m : Machine F, R m { m with state := .done }) (depth n : Nat) :
    Leads R (runFrames call depth n) := by
  have instruction : Leads R (do collectGarbage; execute (runHost call) : Action F Unit) :=
    leads_collectGarbage.bind fun _ => leads_execute hhost hdone
  induction n with
  | zero => exact leads_throw _
  | succ n ih =>
    intro m
    rw [ends_iff, runFrames]
    by_cases hdepth : m.frameDepth ≤ depth
    · simp only [hdepth, if_true]
      exact Lenient.refl m
    · simp only [hdepth, if_false]
      cases hs : (do collectGarbage; execute (runHost call) : Action F Unit) m with
      | error e m₁ => exact (instruction m).of_error hs
      | ok _ m₁ =>
        have h₁ := (instruction m).of_ok hs
        by_cases hready : m₁.state = .ready
        · simp only [hready, if_true]
          exact ends_iff.1 ((ih m₁).imp (fun _ _ => Lenient.trans h₁) fun _ _ => Lenient.trans h₁)
        · simp only [hready, if_false]
          exact h₁

omit [Roaming R] in
/-- A call from host code ends in the state in which it began. -/
theorem leads_callClosure_sameState [HostFunctions F] (n : Nat) (closure : Ref) (args : List Ref) :
    Leads SameState (callClosure n closure args : Action F Ref) := by
  cases n with
  | zero => exact leads_throw _
  | succ n =>
    intro m
    rw [ends_iff, callClosure, guarded]
    split
    · next hs =>
      split at hs
      · cases hs
        rfl
      · cases hs
    · next hs =>
      split at hs
      · cases hs
      · cases hs
        rfl

end Machine

end SwarmVm
