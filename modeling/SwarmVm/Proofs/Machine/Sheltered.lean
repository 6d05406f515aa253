import SwarmVm.Machine.Inbox
import SwarmVm.Proofs.Machine.Delivery
import SwarmVm.Proofs.Machine.Wards

/-!
# Host functions and arrays that are looked after

Host functions write to the tables that they make and to the listeners, and to nothing else that is
a table or an array. So do the handlers of messages. What they call back leaves the array alone as
well, which is an assumption here.

## Main results

* `Machine.concludes_runHost` — host functions
* `Machine.shelters_dispatch`, `Machine.shelters_receive` — messages
-/

namespace SwarmVm

/-- Captured records are not sent. -/
theorem Wire.captured?_of_decode {bytes : List UInt8} {message : Message Value} {v : Value}
    (hd : Wire.decode? bytes = some message) (hv : message.payload? = some v) :
    v.captured? = none := by
  obtain ⟨-, -, -, -, -, hflat⟩ := Wire.exists_reads_of_decode? hd
  have payload : message.flat.payload? = message.payload?.map Value.flat := by
    cases message <;> rfl
  rw [hflat, hv, Option.map_some, Option.some.injEq] at payload
  rw [payload]
  cases v <;> rfl

namespace Machine

variable {F α : Type} {m m' : Machine F} {w : Ward}

/-! ### The log and messages -/

theorem shelters_describeLocals :
    ∀ n i, Shelters w (describeLocals i n : Action F (List String))
  | 0, _ => shelters_pure trivial
  | n + 1, i => (shelters_localAt _).bind fun _ _ => shelters_get_bind fun _ _ =>
    (shelters_describeLocals n (i + 1)).bind fun _ _ => shelters_pure trivial

theorem shelters_send (message : Message Value) : Shelters w (send message : Action F Unit) := by
  refine shelters_get_bind fun m _ => ?_
  obtain ⟨evicted, outbox⟩ := m.outbox.append message
  refine Shelters.bind (shelters_modify fun _ => rfl) fun _ _ => ?_
  cases evicted with
  | some lost => exact shelters_emit _
  | none => exact shelters_pure trivial

/-! ### Neighbors -/

theorem shelters_setNumber {t : Ref} (ht : t ≠ w.ref) (name : Builtin) (n : Nat) :
    Shelters w (setNumber t name n : Action F Unit) :=
  (shelters_alloc _ (by rfl)).bind fun _ _ => shelters_setField ht _ _

theorem shelters_sightingTable (s : Sighting) : Shelters w (sightingTable s : Action F Ref) :=
  shelters_tableNew.bind fun _ ht => (shelters_setNumber ht _ _).bind fun _ _ =>
    (shelters_setNumber ht _ _).bind fun _ _ => (shelters_setNumber ht _ _).bind fun _ _ =>
      shelters_pure trivial

theorem shelters_entriesOf (view : View) :
    Shelters w (entriesOf view : Action F (List (RobotId × Option Ref))) := by
  cases view with
  | sensed => exact shelters_get_bind fun _ _ => shelters_pure trivial
  | derived t =>
    exact (shelters_touch t).bind fun _ _ => shelters_get_bind fun _ _ => shelters_pure trivial

theorem shelters_sensedValue (robot : RobotId) :
    Shelters w (sensedValue robot : Action F Ref) := by
  refine shelters_get_bind fun m _ => ?_
  cases m.sensors.get? robot with
  | some s => exact shelters_sightingTable s
  | none => exact shelters_get_bind fun _ _ => shelters_pure trivial

theorem shelters_viewValue (robot : RobotId) (stored : Option Ref) :
    Shelters w (viewValue robot stored : Action F Ref) := by
  cases stored with
  | some r => exact shelters_pure trivial
  | none => exact shelters_sensedValue robot

theorem shelters_pushDerived : Shelters w (pushDerived : Action F Ref) (· ≠ w.ref) :=
  (shelters_methodTable _).bind fun _ ht => (shelters_push _).bind fun _ _ => shelters_pure ht

theorem shelters_setRobotEntry {t : Ref} (ht : t ≠ w.ref) (robot : RobotId) (r : Ref) :
    Shelters w (setRobotEntry t robot r : Action F Unit) :=
  (shelters_alloc _ (by rfl)).bind fun _ _ => shelters_tableSet ht _ _

theorem shelters_derivedView : Shelters w (derivedView : Action F View) :=
  (shelters_localAt _).bind fun _ _ => shelters_get_bind fun _ _ => (shelters_require _ _).bind
    fun _ _ => shelters_pure trivial

theorem shelters_keepKinship (kin : Bool) {result : Ref} (hr : result ≠ w.ref) :
    ∀ l, Shelters w (keepKinship kin result l : Action F Unit)
  | [] => shelters_pure trivial
  | (robot, stored) :: rest => by
    refine shelters_get_bind fun m _ => ?_
    have ih := shelters_keepKinship kin hr rest
    simp only
    split
    · exact (shelters_viewValue robot stored).bind fun _ _ => (shelters_setRobotEntry hr _ _).bind
        fun _ _ => ih
    · exact ih

section Loops

variable {call : Caller F} (hcall : ∀ closure args, Shelters w (call closure args))

include hcall

theorem shelters_eachRobot (callback : Ref) : ∀ l, Shelters w (eachRobot call callback l)
  | [] => shelters_pure trivial
  | (robot, stored) :: rest => (shelters_viewValue robot stored).bind fun _ _ =>
    (shelters_alloc _ (by rfl)).bind fun _ _ => (hcall _ _).bind fun _ _ =>
      shelters_eachRobot callback rest

theorem shelters_mapRobots (callback : Ref) {result : Ref} (hr : result ≠ w.ref) :
    ∀ l, Shelters w (mapRobots call callback result l)
  | [] => shelters_pure trivial
  | (robot, stored) :: rest => (shelters_viewValue robot stored).bind fun _ _ =>
    (shelters_alloc _ (by rfl)).bind fun _ _ => (hcall _ _).bind fun _ _ =>
      (shelters_setRobotEntry hr _ _).bind fun _ _ => shelters_mapRobots callback hr rest

theorem shelters_filterRobots (callback : Ref) {result : Ref} (hr : result ≠ w.ref) :
    ∀ l, Shelters w (filterRobots call callback result l)
  | [] => shelters_pure trivial
  | (robot, stored) :: rest => by
    refine (shelters_viewValue robot stored).bind fun _ _ =>
      (shelters_alloc _ (by rfl)).bind fun _ _ =>
      (shelters_push _).bind fun _ _ => (hcall _ _).bind fun _ _ => shelters_pop.bind fun _ _ =>
        shelters_get_bind fun _ _ => ?_
    have ih := shelters_filterRobots callback hr rest
    simp only
    split
    · exact (shelters_setRobotEntry hr _ _).bind fun _ _ => ih
    · exact ih

theorem shelters_reduceRobots (callback : Ref) : ∀ l, Shelters w (reduceRobots call callback l)
  | [] => shelters_pure trivial
  | (robot, stored) :: rest => (shelters_viewValue robot stored).bind fun _ _ =>
    (shelters_alloc _ (by rfl)).bind fun _ _ => (shelters_peek _).bind fun _ _ => (hcall _ _).bind
      fun _ _ => (shelters_setPeek _ _).bind fun _ _ => shelters_reduceRobots callback rest

theorem concludes_neighborsForeach (view : View) : Concludes w (neighborsForeach call view) :=
  (shelters_requireArgs _).concludes fun _ _ => (shelters_closureArg _).concludes fun _ _ =>
    (shelters_entriesOf view).concludes fun l _ => (shelters_eachRobot hcall _ l).concludes
      fun _ _ => concludes_ret0

theorem concludes_neighborsMap (view : View) : Concludes w (neighborsMap call view) :=
  (shelters_requireArgs _).concludes fun _ _ => (shelters_closureArg _).concludes fun _ _ =>
    shelters_pushDerived.concludes fun _ hr => (shelters_entriesOf view).concludes fun l _ =>
      (shelters_mapRobots hcall _ hr l).concludes fun _ _ => concludes_ret1

theorem concludes_neighborsFilter (view : View) : Concludes w (neighborsFilter call view) :=
  (shelters_requireArgs _).concludes fun _ _ => (shelters_closureArg _).concludes fun _ _ =>
    shelters_pushDerived.concludes fun _ hr => (shelters_entriesOf view).concludes fun l _ =>
      (shelters_filterRobots hcall _ hr l).concludes fun _ _ => concludes_ret1

theorem concludes_neighborsReduce (view : View) : Concludes w (neighborsReduce call view) :=
  (shelters_requireArgs _).concludes fun _ _ => (shelters_closureArg _).concludes fun _ _ =>
    (shelters_localAt _).concludes fun _ _ => (shelters_push _).concludes fun _ _ =>
      (shelters_entriesOf view).concludes fun l _ => (shelters_reduceRobots hcall _ l).concludes
        fun _ _ => concludes_ret1

end Loops

theorem concludes_neighborsGet (view : View) :
    Concludes w (neighborsGet view : Action F Unit) := by
  refine (shelters_requireArgs _).concludes fun _ _ => shelters_argument.concludes fun i _ => ?_
  have result : ∀ r, Concludes w (do push r; ret1 : Action F Unit) := by
    intro r
    exact (shelters_push r).concludes fun _ _ => concludes_ret1
  cases view with
  | sensed => exact (shelters_sensedValue _).concludes fun r _ => result r
  | derived t =>
    exact (shelters_localAt _).concludes fun key _ => (shelters_tableGet t key).concludes
      fun r _ => result r

theorem concludes_neighborsCount (view : View) :
    Concludes w (neighborsCount view : Action F Unit) :=
  (shelters_requireArgs _).concludes fun _ _ => (shelters_entriesOf view).concludes fun _ _ =>
    (shelters_pushValue _ (by rfl)).concludes fun _ _ => concludes_ret1

theorem concludes_neighborsKinship (kin : Bool) (view : View) :
    Concludes w (neighborsKinship kin view : Action F Unit) :=
  (shelters_requireArgs _).concludes fun _ _ => shelters_pushDerived.concludes fun _ hr =>
    (shelters_entriesOf view).concludes fun l _ => (shelters_keepKinship kin hr l).concludes
      fun _ _ => concludes_ret1

theorem concludes_neighborsBroadcast : Concludes w (neighborsBroadcast : Action F Unit) :=
  (shelters_requireArgs _).concludes fun _ _ => shelters_argument.concludes fun _ _ =>
    (shelters_localAt _).concludes fun _ _ => concludes_get_bind fun _ _ =>
      (shelters_send _).concludes fun _ _ => concludes_ret0

theorem concludes_neighborsListen : Concludes w (neighborsListen : Action F Unit) :=
  (shelters_requireArgs _).concludes fun _ _ => shelters_argument.concludes fun _ _ =>
    (shelters_localAt _).concludes fun _ _ => (shelters_closureArg _).concludes fun _ _ =>
      concludes_get_bind fun _ hd => (shelters_tableSet hd.listeners _ _).concludes
        fun _ _ => concludes_ret0

theorem concludes_neighborsIgnore : Concludes w (neighborsIgnore : Action F Unit) :=
  (shelters_requireArgs _).concludes fun _ _ => shelters_argument.concludes fun _ _ =>
    (shelters_localAt _).concludes fun _ _ => concludes_get_bind fun _ hd =>
      (shelters_tableSet hd.listeners _ _).concludes fun _ _ => concludes_ret0

/-! ### The shared store -/

theorem shelters_ownedCopy (r : Ref) : Shelters w (ownedCopy r : Action F Ref) := by
  have copy : Shelters w (onHeap (Heap.copy r) : Action F Ref) :=
    (confined_copy r).shelters fun m hm hs => hs.toApart.ends_onHeap (P := fun _ _ => True)
      (((Heap.spares_copy hm.wellFormed r).and (Heap.mints_copy hm.wellFormed r)).imp
        (fun _ _ h => ⟨.of_mints (h.1.unaltered hs.isValid) h.2, trivial⟩)
        fun _ _ h => h.1.symm ▸ .refl hs.isValid)
  exact copy.bind fun _ _ => (shelters_setPermanent _ true).bind fun _ _ => shelters_pure trivial

theorem shelters_replaceOwned (old new : Ref) :
    Shelters w (replaceOwned old new : Action F Ref) := by
  rw [replaceOwned]
  split
  · exact shelters_pure trivial
  · exact (shelters_ownedCopy new).bind fun _ _ => (shelters_setPermanent old false).bind
      fun _ _ => shelters_pure trivial

theorem shelters_storeVersion (position : Nat) (v : Version) :
    Shelters w (storeVersion position v : Action F Unit) := by
  refine shelters_get_bind fun m _ => ?_
  cases m.stigmergy.entries[position]? with
  | none => exact shelters_stray
  | some old => exact (shelters_replaceOwned _ _).bind fun _ _ => shelters_modify fun _ => rfl

theorem shelters_insertVersion (key : NameId) (v : Version) :
    Shelters w (insertVersion key v : Action F Unit) :=
  shelters_get_bind fun _ _ => (shelters_ownedCopy _).bind fun _ _ => shelters_modify fun _ => rfl

theorem shelters_sendEntry (op : StigmergyOp) (key : NameId) (position : Nat) :
    Shelters w (sendEntry op key position : Action F Unit) := by
  refine shelters_get_bind fun m _ => ?_
  cases m.stigmergy.entries[position]? with
  | none => exact shelters_stray
  | some e => exact shelters_send _

/-- Starting over lets every value of the store be collected, which alters no object. -/
theorem shelters_resetStigmergy : Shelters w (resetStigmergy : Action F Unit) := by
  refine confined_resetStigmergy.shelters fun m hm hs =>
    ends_modify ⟨hs.toApart.spared ⟨rfl, rfl, rfl, rfl⟩ ?_, trivial⟩
  have fold : ∀ (l : List StigmergyEntry) (h : Heap), h.WellFormed →
      Heap.Spares ∅ h (l.foldl (fun h e => h.clearPermanent e.value) h)
        ∧ Heap.Mints ∅ h (l.foldl (fun h e => h.clearPermanent e.value) h) := by
    intro l
    induction l with
    | nil => exact fun h _ => ⟨.refl _ h, .refl h⟩
    | cons e l ih =>
      intro h wf
      have ev : Heap.Evolves {e.value} ∅ h _ := Heap.evolves_setPermanent wf e.value false
      obtain ⟨sp, mi⟩ := ih _ ev.wellFormed
      exact ⟨(Heap.spares_setPermanent wf e.value false).trans sp,
        (Heap.mints_setPermanent wf e.value false).trans mi⟩
  have left := fold m.stigmergy.entries.toList m.heap hm.wellFormed
  rw [Array.foldl_toList] at left
  exact .of_mints (left.1.unaltered hs.isValid) left.2

theorem concludes_stigmergyCreate : Concludes w (stigmergyCreate : Action F Unit) :=
  (shelters_requireArgs _).concludes fun _ _ => shelters_argument.concludes fun _ _ =>
    (shelters_localAt _).concludes fun _ _ => shelters_resetStigmergy.concludes fun _ _ =>
      (shelters_methodTable _).concludes fun _ ht => (shelters_setField ht _ _).concludes
        fun _ _ => (shelters_push _).concludes fun _ _ => concludes_ret1

theorem concludes_stigmergyPut : Concludes w (stigmergyPut : Action F Unit) := by
  refine (shelters_requireArgs _).concludes fun _ _ => shelters_argument.concludes fun key _ =>
    (shelters_localAt _).concludes fun _ _ => concludes_get_bind fun m _ => ?_
  cases m.stigmergy.position? key with
  | some position =>
    exact (shelters_storeVersion _ _).concludes fun _ _ => (shelters_sendEntry _ _ _).concludes
      fun _ _ => concludes_ret0
  | none =>
    exact (shelters_require _ _).concludes fun _ _ => (shelters_insertVersion _ _).concludes
      fun _ _ => concludes_get_bind fun _ _ => (shelters_sendEntry _ _ _).concludes
        fun _ _ => concludes_ret0

theorem concludes_stigmergyGet : Concludes w (stigmergyGet : Action F Unit) := by
  refine (shelters_requireArgs _).concludes fun _ _ => shelters_argument.concludes fun key _ =>
    concludes_get_bind fun m _ => ?_
  cases m.stigmergy.position? key with
  | some position =>
    exact (shelters_sendEntry _ _ _).concludes fun _ _ => (shelters_push _).concludes
      fun _ _ => concludes_ret1
  | none =>
    exact (shelters_send _).concludes fun _ _ => shelters_pushNil.concludes
      fun _ _ => concludes_ret1

theorem concludes_stigmergySize : Concludes w (stigmergySize : Action F Unit) :=
  (shelters_requireArgs _).concludes fun _ _ => concludes_get_bind fun _ _ =>
    (shelters_pushValue _ (by rfl)).concludes fun _ _ => concludes_ret1

theorem concludes_stigmergyOnconflict : Concludes w (stigmergyOnconflict : Action F Unit) :=
  (shelters_requireArgs _).concludes fun _ _ => (shelters_closureArg _).concludes fun _ _ =>
    Shelters.concludes (shelters_modify fun _ => rfl) fun _ _ => concludes_ret0

theorem concludes_stigmergyOnconflictlost :
    Concludes w (stigmergyOnconflictlost : Action F Unit) :=
  (shelters_requireArgs _).concludes fun _ _ => (shelters_closureArg _).concludes fun _ _ =>
    Shelters.concludes (shelters_modify fun _ => rfl) fun _ _ => concludes_ret0

/-! ### Swarms -/

theorem shelters_swarmOfInt (i : Int16) : Shelters w (swarmOfInt i : Action F UInt8) :=
  (shelters_require _ _).bind fun _ _ => shelters_pure trivial

theorem shelters_selfSwarm : Shelters w (selfSwarm : Action F UInt8) :=
  (shelters_localAt _).bind fun _ _ => (shelters_expectTable _).bind fun _ _ =>
    (shelters_field _ _).bind fun _ _ => shelters_get_bind fun _ _ => (shelters_orFail _ _).bind
      fun _ _ => shelters_swarmOfInt _

theorem shelters_setMembership (member : Bool) :
    Shelters w (setMembership member : Action F Unit) := by
  refine shelters_selfSwarm.bind fun swarm _ => shelters_get_bind fun m _ => ?_
  obtain ⟨announcement, membership⟩ := m.membership.setMember m.robot swarm member
  refine Shelters.bind (shelters_modify fun _ => rfl) fun _ _ => ?_
  cases announcement with
  | some message => exact shelters_send _
  | none => exact shelters_pure trivial

theorem concludes_swarmCreate : Concludes w (swarmCreate : Action F Unit) :=
  (shelters_requireArgs _).concludes fun _ _ => shelters_argument.concludes fun _ _ =>
    (shelters_swarmOfInt _).concludes fun _ _ => (shelters_localAt _).concludes fun _ _ =>
      (shelters_methodTable _).concludes fun _ ht => (shelters_setField ht _ _).concludes
        fun _ _ => (shelters_push _).concludes fun _ _ => concludes_ret1

theorem concludes_swarmIn : Concludes w (swarmIn : Action F Unit) :=
  (shelters_requireArgs _).concludes fun _ _ => shelters_selfSwarm.concludes fun _ _ =>
    concludes_get_bind fun _ _ => (shelters_pushValue _ (by rfl)).concludes
      fun _ _ => concludes_ret1

theorem concludes_swarmSelect : Concludes w (swarmSelect : Action F Unit) :=
  (shelters_requireArgs _).concludes fun _ _ => (shelters_localAt _).concludes fun _ _ =>
    concludes_get_bind fun _ _ => (shelters_setMembership _).concludes fun _ _ => concludes_ret0

theorem concludes_swarmExec {call : Caller F}
    (hcall : ∀ closure args, Shelters w (call closure args)) : Concludes w (swarmExec call) := by
  refine (shelters_requireArgs _).concludes fun _ _ => (shelters_closureArg _).concludes fun _ _ =>
    shelters_selfSwarm.concludes fun _ _ => concludes_get_bind fun _ _ => ?_
  simp only
  split
  · exact (hcall _ _).concludes fun _ _ => concludes_ret0
  · exact concludes_ret0

/-! ### All of them -/

theorem concludes_writeLog : Concludes w (writeLog : Action F Unit) :=
  concludes_get_bind fun _ _ => (shelters_touch _).concludes fun _ _ => concludes_get_bind
    fun _ _ => (shelters_describeLocals _ _).concludes fun _ _ => concludes_get_bind fun _ _ =>
      (shelters_emit _).concludes fun _ _ => concludes_ret0

/-- A standard host function leaves the default record alone. -/
theorem concludes_runPrimitive {call : Caller F}
    (hcall : ∀ closure args, Shelters w (call closure args)) (p : Primitive) :
    Concludes w (runPrimitive call p) := by
  have derived : ∀ {f : View → Action F Unit}, (∀ view, Concludes w (f view)) →
      Concludes w (derivedView >>= f) :=
    fun hf => shelters_derivedView.concludes fun view _ => hf view
  unfold runPrimitive
  cases p with
  | log => exact concludes_writeLog
  | neighborsBroadcast => exact concludes_neighborsBroadcast
  | neighborsListen => exact concludes_neighborsListen
  | neighborsIgnore => exact concludes_neighborsIgnore
  | neighborsGet => exact concludes_neighborsGet _
  | neighborsForeach => exact concludes_neighborsForeach hcall _
  | neighborsMap => exact concludes_neighborsMap hcall _
  | neighborsReduce => exact concludes_neighborsReduce hcall _
  | neighborsFilter => exact concludes_neighborsFilter hcall _
  | neighborsCount => exact concludes_neighborsCount _
  | neighborsKin | neighborsNonkin => exact concludes_neighborsKinship _ _
  | derivedGet => exact derived concludes_neighborsGet
  | derivedForeach => exact derived (concludes_neighborsForeach hcall)
  | derivedMap => exact derived (concludes_neighborsMap hcall)
  | derivedReduce => exact derived (concludes_neighborsReduce hcall)
  | derivedFilter => exact derived (concludes_neighborsFilter hcall)
  | derivedCount => exact derived concludes_neighborsCount
  | derivedKin | derivedNonkin => exact derived (concludes_neighborsKinship _)
  | stigmergyCreate => exact concludes_stigmergyCreate
  | stigmergyPut => exact concludes_stigmergyPut
  | stigmergyGet => exact concludes_stigmergyGet
  | stigmergySize => exact concludes_stigmergySize
  | stigmergyOnconflict => exact concludes_stigmergyOnconflict
  | stigmergyOnconflictlost => exact concludes_stigmergyOnconflictlost
  | swarmCreate => exact concludes_swarmCreate
  | swarmJoin | swarmLeave =>
    exact (shelters_requireArgs _).concludes fun _ _ => (shelters_setMembership _).concludes
      fun _ _ => concludes_ret0
  | swarmIn => exact concludes_swarmIn
  | swarmSelect => exact concludes_swarmSelect
  | swarmExec => exact concludes_swarmExec hcall

theorem concludes_runHost [HostFunctions F] {call : Caller F}
    (hcall : ∀ closure args, Shelters w (call closure args)) (number : UInt16) :
    Concludes w (runHost call number) := by
  rw [runHost]
  cases Primitive.ofId? number with
  | some p => exact concludes_runPrimitive hcall p
  | none =>
    intro c m hc hs
    refine ends_get_bind ?_
    rw [hc.standard.functions]
    exact ends_throw ⟨.refl hc.standard, .refl hs.toApart⟩

/-! ### Messages -/

theorem shelters_setError (e : Fault) : Shelters w (setError e : Action F Unit) := by
  refine Shelters.bind (shelters_modify fun _ => rfl) fun _ _ => shelters_get_bind fun m _ => ?_
  split
  · exact shelters_emit _
  · exact shelters_pure trivial

theorem shelters_release (message : Message Ref) :
    Shelters w (release message : Action F Unit) := by
  rw [release]
  cases message.payload? with
  | some r => exact shelters_setPermanent r false
  | none => exact shelters_pure trivial

theorem shelters_receive (payload : List UInt8) :
    Shelters w (receive payload : Action F Unit) := by
  rw [receive]
  cases hd : Wire.decode? payload with
  | none => exact shelters_emit _
  | some message =>
    have object : Shelters w (payloadObject message : Action F Ref) := by
      rw [payloadObject]
      cases hv : message.payload? with
      | none => exact shelters_get_bind fun _ _ => shelters_pure trivial
      | some v =>
        exact (shelters_allocValue (Wire.not_table_of_decode hd hv)
          (Wire.captured?_of_decode hd hv)).bind fun r _ =>
            (shelters_setPermanent r true).bind fun _ _ => shelters_pure trivial
    refine object.bind fun r _ => shelters_get_bind fun m _ => ?_
    obtain ⟨evicted, inbox⟩ := m.inbox.push (message.withPayload r)
    refine Shelters.bind (shelters_modify fun _ => rfl) fun _ _ => ?_
    cases evicted with
    | some lost => exact shelters_release lost
    | none => exact shelters_pure trivial

theorem shelters_processOutbox : Shelters w (processOutbox : Action F Unit) := by
  refine shelters_get_bind fun m _ => ?_
  obtain ⟨announcement, membership⟩ := m.membership.tick m.robot
  refine Shelters.bind (shelters_modify fun _ => rfl) fun _ _ => ?_
  cases announcement with
  | some message => exact shelters_send message
  | none => exact shelters_pure trivial

theorem shelters_versionTable (v : Version) : Shelters w (versionTable v : Action F Ref) :=
  shelters_tableNew.bind fun _ ht => (shelters_alloc _ (by rfl)).bind fun _ _ =>
    (shelters_setField ht _ _).bind fun _ _ => (shelters_setField ht _ _).bind fun _ _ =>
      (shelters_alloc _ (by rfl)).bind fun _ _ => (shelters_setField ht _ _).bind fun _ _ =>
        shelters_pure trivial

theorem shelters_intField (t : Ref) (name : Builtin) :
    Shelters w (intField t name : Action F Int) :=
  (shelters_field _ _).bind fun _ _ => shelters_get_bind fun _ _ => (shelters_orFail _ _).bind
    fun _ _ => shelters_pure trivial

theorem shelters_readVersion (t : Ref) : Shelters w (readVersion t : Action F Version) :=
  (shelters_expectTable _).bind fun _ _ => (shelters_intField _ _).bind fun _ _ =>
    (shelters_intField _ _).bind fun _ _ => (shelters_field _ _).bind fun _ _ =>
      (shelters_require _ _).bind fun _ _ => (shelters_require _ _).bind fun _ _ =>
        shelters_pure trivial

theorem shelters_lossToReport (here winner : Version) :
    Shelters w (lossToReport here winner : Action F (Option (Ref × Ref))) := by
  refine shelters_get_bind fun m _ => ?_
  split
  · split
    · exact (shelters_versionTable here).bind fun _ _ => shelters_pure trivial
    · exact shelters_pure trivial
  · exact shelters_pure trivial

theorem shelters_receiveNew (op : StigmergyOp) (key : NameId) (there : Version) :
    Shelters w (receiveNew op key there : Action F Unit) := by
  refine shelters_get_bind fun m _ => ?_
  split
  · exact shelters_pure trivial
  · split
    · exact shelters_emit _
    · exact (shelters_insertVersion _ _).bind fun _ _ => shelters_get_bind fun _ _ =>
        shelters_sendEntry _ _ _

section Handling

variable {call : Caller F} (hcall : ∀ closure args, Shelters w (call closure args))

include hcall

theorem shelters_deliverBroadcast (robot : RobotId) (topic payload : Ref) :
    Shelters w (deliverBroadcast call robot topic payload) := by
  refine shelters_get_bind fun _ _ => (shelters_touch _).bind fun _ _ => shelters_get_bind
    fun m _ => ?_
  split
  · exact shelters_pure trivial
  · split
    · exact (shelters_alloc _ (by rfl)).bind fun _ _ => (hcall _ _).bind
        fun _ _ => shelters_pure trivial
    · exact shelters_pure trivial

theorem shelters_chooseWinner (key : Ref) (here there : Version) :
    Shelters w (chooseWinner call key here there) := by
  refine shelters_get_bind fun m _ => ?_
  cases m.stigmergy.onConflict with
  | some callback =>
    exact (shelters_versionTable _).bind fun _ _ => (shelters_versionTable _).bind fun _ _ =>
      (hcall _ _).bind fun _ _ => shelters_readVersion _
  | none => exact shelters_pure trivial

theorem shelters_settleConflict (key : NameId) (position : Nat) (here there : Version) :
    Shelters w (settleConflict call key position here there) := by
  refine (shelters_alloc _ (by rfl)).bind fun _ _ =>
    (shelters_chooseWinner hcall _ _ _).bind fun _ _ =>
    (shelters_emit _).bind fun _ _ => (shelters_lossToReport _ _).bind fun loss _ =>
      (shelters_storeVersion _ _).bind fun _ _ => (shelters_sendEntry _ _ _).bind fun _ _ => ?_
  cases loss with
  | some loss => exact (hcall _ _).bind fun _ _ => shelters_pure trivial
  | none => exact shelters_pure trivial

theorem shelters_receiveStigmergy (op : StigmergyOp) (key : NameId) (there : Version) :
    Shelters w (receiveStigmergy call op key there) := by
  refine shelters_get_bind fun m _ => ?_
  dsimp only
  split
  · exact shelters_receiveNew op key there
  · split
    · exact shelters_pure trivial
    · split
      · exact (shelters_storeVersion _ _).bind fun _ _ => shelters_sendEntry _ _ _
      · split
        · exact shelters_settleConflict hcall _ _ _ _
        · split
          · exact shelters_sendEntry _ _ _
          · exact shelters_pure trivial

/-- Handling a message leaves the default record alone. -/
theorem shelters_dispatch (message : Message Ref) : Shelters w (dispatch call message) := by
  cases message with
  | broadcast robot topic r =>
    refine shelters_get_bind fun m _ => ?_
    split
    · exact (shelters_alloc _ (by rfl)).bind fun _ _ => shelters_deliverBroadcast hcall _ _ _
    · exact shelters_emit _
  | stigmergy op robot key r clock => exact shelters_receiveStigmergy hcall _ _ _
  | swarm op robot clock swarms =>
    refine shelters_get_bind fun m _ => ?_
    split
    · obtain ⟨membership, events⟩ := m.membership.apply op robot clock swarms
      exact shelters_modify fun _ => rfl
    · exact shelters_pure trivial

end Handling

end Machine

end SwarmVm
