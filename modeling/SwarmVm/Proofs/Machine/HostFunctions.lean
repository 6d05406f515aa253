import SwarmVm.Machine.Run
import SwarmVm.Proofs.Machine.Lasting

/-!
# Host functions

Every standard host function is confined to its call and ends with a return, provided that what it
calls back is confined as well; and if that does not end a condition that lasts, neither does the
function. The functions are taken apart as they are written: what they read of their arguments, the
tables and messages that they make, and the loops over neighbors.

## Main results

* `Machine.upholds_eachRobot`, `Machine.upholds_storeVersion` and the like — the parts
* `Machine.finishes_runPrimitive`, `Machine.finishes_runHost` — the functions
-/

namespace SwarmVm

namespace Machine

open Heap (Arbitrary reliance_arbitrary)

variable {F α : Type} {I : Machine F → Prop}

/-! ### What leaves the control alone -/

section Patient

variable [Patient I]

theorem upholds_require (c : Bool) (e : Fault) : Upholds I (require c e : Action F Unit) :=
  upholds_of_leads yields_require (leads_require c e)

theorem upholds_orFail (o : Option α) (e : Fault) : Upholds I (orFail o e : Action F α) :=
  upholds_of_leads yields_orFail (leads_orFail o e)

theorem upholds_stray : Upholds I (stray : Action F Unit) := upholds_adjust fun _ => rfl

theorem upholds_emit (e : Event) : Upholds I (emit e : Action F Unit) :=
  upholds_of_leads yields_emit (leads_emit e)

theorem upholds_touch (t : Ref) : Upholds I (touch t : Action F Unit) :=
  upholds_of_leads (fun hm => yields_touch reliance_arbitrary hm hm.nil)
    (leads_touch t)

theorem upholds_alloc (v : Value) : Upholds I (alloc v : Action F Ref) :=
  upholds_of_leads (fun hm => yields_alloc reliance_arbitrary hm fun _ _ _ _ => hm.nil)
    (leads_alloc v)

theorem upholds_tableNew : Upholds I (onHeap Heap.tableNew : Action F Ref) :=
  upholds_of_leads (fun hm => yields_tableNew reliance_arbitrary hm) (leads_onHeap _)

theorem upholds_field (t : Ref) (name : NameId) : Upholds I (field t name : Action F Ref) :=
  upholds_of_leads (fun hm => yields_field reliance_arbitrary hm hm.nil) (leads_field t name)

theorem upholds_setField (t : Ref) (name : NameId) (r : Ref) :
    Upholds I (setField t name r : Action F Unit) :=
  upholds_of_leads (fun hm => yields_setField reliance_arbitrary hm hm.nil hm.nil)
    (leads_setField t name r)

theorem upholds_expectTable (r : Ref) : Upholds I (expectTable r : Action F Unit) :=
  upholds_of_leads (fun hm => yields_expectTable hm) (leads_expectTable r)

theorem upholds_send (message : Message Value) : Upholds I (send message : Action F Unit) := by
  refine upholds_get_bind fun m => ?_
  obtain ⟨evicted, outbox⟩ := m.outbox.append message
  refine Upholds.bind (upholds_adjust fun _ => rfl) fun _ => ?_
  cases evicted with
  | some lost => exact upholds_emit _
  | none => exact upholds_pure _

end Patient

/-! ### What instructions share with host functions -/

variable [Lasting I]

section Shared

theorem upholds_push (r : Ref) : Upholds I (push r : Action F Unit) :=
  upholds_of_yields fun hm => yields_push hm hm.nil

theorem upholds_pop : Upholds I (pop : Action F Ref) := upholds_of_yields yields_pop

theorem upholds_peek (n : Nat) : Upholds I (peek n : Action F Ref) :=
  upholds_of_yields fun hm => yields_peek hm

theorem upholds_setPeek (n : Nat) (r : Ref) : Upholds I (setPeek n r : Action F Unit) :=
  upholds_of_yields fun hm => yields_setPeek hm hm.nil

theorem upholds_pushNil : Upholds I (pushNil : Action F Unit) := upholds_of_yields yields_pushNil

theorem upholds_pushInt (i : Int16) : Upholds I (pushInt i : Action F Unit) :=
  upholds_of_yields fun hm => yields_pushInt reliance_arbitrary hm

theorem upholds_tableGet (t key : Ref) : Upholds I (tableGet t key : Action F Ref) :=
  upholds_of_yields fun hm => yields_tableGet reliance_arbitrary hm hm.nil

theorem upholds_tableSet (t key r : Ref) : Upholds I (tableSet t key r : Action F Unit) :=
  upholds_of_yields fun hm => yields_tableSet reliance_arbitrary hm hm.nil hm.nil hm.nil

theorem upholds_methodTable (methods : List (Builtin × Primitive)) :
    Upholds I (methodTable methods : Action F Ref) :=
  upholds_of_yields fun hm => yields_methodTable reliance_arbitrary hm

theorem upholds_requireArgs (n : Nat) : Upholds I (requireArgs n : Action F Unit) :=
  upholds_of_yields fun hm => yields_requireArgs reliance_arbitrary hm

theorem upholds_localAt (i : UInt16) : Upholds I (localAt i : Action F Ref) :=
  upholds_of_yields fun hm => yields_localAt reliance_arbitrary hm

theorem upholds_intArg (i : UInt16) : Upholds I (intArg i : Action F Int16) :=
  upholds_of_yields fun hm => yields_argument reliance_arbitrary hm

theorem upholds_stringArg (i : UInt16) : Upholds I (stringArg i : Action F NameId) :=
  upholds_of_yields fun hm => yields_argument reliance_arbitrary hm

theorem upholds_closureArg (i : UInt16) : Upholds I (closureArg i : Action F Ref) :=
  upholds_of_yields fun hm => yields_closureArg reliance_arbitrary hm

end Shared

/-! ### The log -/

theorem upholds_describeLocals : ∀ n i, Upholds I (describeLocals i n : Action F (List String))
  | 0, _ => upholds_pure []
  | n + 1, i => (upholds_localAt _).bind fun _ => upholds_get_bind fun _ =>
    (upholds_describeLocals n (i + 1)).bind fun _ => upholds_pure _

/-! ### Neighbors -/

theorem upholds_setNumber (t : Ref) (name : Builtin) (n : Nat) :
    Upholds I (setNumber t name n : Action F Unit) :=
  (upholds_alloc _).bind fun _ => upholds_setField _ _ _

theorem upholds_sightingTable (s : Sighting) : Upholds I (sightingTable s : Action F Ref) :=
  upholds_tableNew.bind fun _ => (upholds_setNumber _ _ _).bind fun _ =>
    (upholds_setNumber _ _ _).bind fun _ => (upholds_setNumber _ _ _).bind fun _ =>
      upholds_pure _

theorem upholds_entriesOf (view : View) :
    Upholds I (entriesOf view : Action F (List (RobotId × Option Ref))) := by
  cases view with
  | sensed => exact upholds_get_bind fun _ => upholds_pure _
  | derived t => exact (upholds_touch t).bind fun _ => upholds_get_bind fun _ => upholds_pure _

theorem upholds_sensedValue (robot : RobotId) : Upholds I (sensedValue robot : Action F Ref) := by
  refine upholds_get_bind fun m => ?_
  cases m.sensors.get? robot with
  | some s => exact upholds_sightingTable s
  | none => exact upholds_get_bind fun _ => upholds_pure _

theorem upholds_viewValue (robot : RobotId) (stored : Option Ref) :
    Upholds I (viewValue robot stored : Action F Ref) := by
  cases stored with
  | some r => exact upholds_pure r
  | none => exact upholds_sensedValue robot

theorem upholds_pushDerived : Upholds I (pushDerived : Action F Ref) :=
  (upholds_methodTable _).bind fun _ => (upholds_push _).bind fun _ => upholds_pure _

theorem upholds_setRobotEntry (t : Ref) (robot : RobotId) (r : Ref) :
    Upholds I (setRobotEntry t robot r : Action F Unit) :=
  (upholds_alloc _).bind fun _ => upholds_tableSet _ _ _

theorem upholds_derivedView : Upholds I (derivedView : Action F View) :=
  (upholds_localAt _).bind fun _ => upholds_get_bind fun _ => (upholds_require _ _).bind
    fun _ => upholds_pure _

theorem upholds_keepKinship (kin : Bool) (result : Ref) :
    ∀ l, Upholds I (keepKinship kin result l : Action F Unit)
  | [] => upholds_pure ()
  | (robot, stored) :: rest => by
    refine upholds_get_bind fun m => ?_
    have ih := upholds_keepKinship kin result rest
    simp only
    split
    · exact (upholds_viewValue robot stored).bind fun _ => (upholds_setRobotEntry _ _ _).bind
        fun _ => ih
    · exact ih

/-! ### Neighbors and the script -/

section Loops

variable {call : Caller F} (hcall : ∀ closure args, Upholds I (call closure args))

include hcall

theorem upholds_eachRobot (callback : Ref) : ∀ l, Upholds I (eachRobot call callback l)
  | [] => upholds_pure ()
  | (robot, stored) :: rest => (upholds_viewValue robot stored).bind fun _ =>
    (upholds_alloc _).bind fun _ => (hcall _ _).bind fun _ => upholds_eachRobot callback rest

theorem upholds_mapRobots (callback result : Ref) :
    ∀ l, Upholds I (mapRobots call callback result l)
  | [] => upholds_pure ()
  | (robot, stored) :: rest => (upholds_viewValue robot stored).bind fun _ =>
    (upholds_alloc _).bind fun _ => (hcall _ _).bind fun _ =>
      (upholds_setRobotEntry _ _ _).bind fun _ => upholds_mapRobots callback result rest

theorem upholds_filterRobots (callback result : Ref) :
    ∀ l, Upholds I (filterRobots call callback result l)
  | [] => upholds_pure ()
  | (robot, stored) :: rest => by
    refine (upholds_viewValue robot stored).bind fun _ => (upholds_alloc _).bind fun _ =>
      (upholds_push _).bind fun _ => (hcall _ _).bind fun _ => upholds_pop.bind fun _ =>
        upholds_get_bind fun _ => ?_
    have ih := upholds_filterRobots callback result rest
    simp only
    split
    · exact (upholds_setRobotEntry _ _ _).bind fun _ => ih
    · exact ih

theorem upholds_reduceRobots (callback : Ref) : ∀ l, Upholds I (reduceRobots call callback l)
  | [] => upholds_pure ()
  | (robot, stored) :: rest => (upholds_viewValue robot stored).bind fun _ =>
    (upholds_alloc _).bind fun _ => (upholds_peek _).bind fun _ => (hcall _ _).bind fun _ =>
      (upholds_setPeek _ _).bind fun _ => upholds_reduceRobots callback rest

theorem finishes_neighborsForeach (view : View) : Finishes I (neighborsForeach call view) :=
  (upholds_requireArgs _).finishes fun _ => (upholds_closureArg _).finishes fun _ =>
    (upholds_entriesOf view).finishes fun l => (upholds_eachRobot hcall _ l).finishes
      fun _ => finishes_ret0

theorem finishes_neighborsMap (view : View) : Finishes I (neighborsMap call view) :=
  (upholds_requireArgs _).finishes fun _ => (upholds_closureArg _).finishes fun _ =>
    upholds_pushDerived.finishes fun _ => (upholds_entriesOf view).finishes fun l =>
      (upholds_mapRobots hcall _ _ l).finishes fun _ => finishes_ret1

theorem finishes_neighborsFilter (view : View) : Finishes I (neighborsFilter call view) :=
  (upholds_requireArgs _).finishes fun _ => (upholds_closureArg _).finishes fun _ =>
    upholds_pushDerived.finishes fun _ => (upholds_entriesOf view).finishes fun l =>
      (upholds_filterRobots hcall _ _ l).finishes fun _ => finishes_ret1

theorem finishes_neighborsReduce (view : View) : Finishes I (neighborsReduce call view) :=
  (upholds_requireArgs _).finishes fun _ => (upholds_closureArg _).finishes fun _ =>
    (upholds_localAt _).finishes fun _ => (upholds_push _).finishes fun _ =>
      (upholds_entriesOf view).finishes fun l => (upholds_reduceRobots hcall _ l).finishes
        fun _ => finishes_ret1

end Loops

theorem finishes_neighborsGet (view : View) : Finishes I (neighborsGet view : Action F Unit) := by
  refine (upholds_requireArgs _).finishes fun _ => (upholds_intArg _).finishes fun i => ?_
  have result : ∀ r, Finishes I (do push r; ret1 : Action F Unit) := by
    intro r
    exact (upholds_push r).finishes fun _ => finishes_ret1
  cases view with
  | sensed => exact (upholds_sensedValue _).finishes result
  | derived t =>
    exact (upholds_localAt _).finishes fun key => (upholds_tableGet t key).finishes result

theorem finishes_neighborsCount (view : View) : Finishes I (neighborsCount view : Action F Unit) :=
  (upholds_requireArgs _).finishes fun _ => (upholds_entriesOf view).finishes fun _ =>
    (upholds_pushInt _).finishes fun _ => finishes_ret1

theorem finishes_neighborsKinship (kin : Bool) (view : View) :
    Finishes I (neighborsKinship kin view : Action F Unit) :=
  (upholds_requireArgs _).finishes fun _ => upholds_pushDerived.finishes fun _ =>
    (upholds_entriesOf view).finishes fun l => (upholds_keepKinship kin _ l).finishes
      fun _ => finishes_ret1

theorem finishes_neighborsBroadcast : Finishes I (neighborsBroadcast : Action F Unit) :=
  (upholds_requireArgs _).finishes fun _ => (upholds_stringArg _).finishes fun _ =>
    (upholds_localAt _).finishes fun _ => finishes_get_bind fun _ =>
      (upholds_send _).finishes fun _ => finishes_ret0

theorem finishes_neighborsListen : Finishes I (neighborsListen : Action F Unit) :=
  (upholds_requireArgs _).finishes fun _ => (upholds_stringArg _).finishes fun _ =>
    (upholds_localAt _).finishes fun _ => (upholds_closureArg _).finishes fun _ =>
      finishes_get_bind fun _ => (upholds_tableSet _ _ _).finishes fun _ => finishes_ret0

theorem finishes_neighborsIgnore : Finishes I (neighborsIgnore : Action F Unit) :=
  (upholds_requireArgs _).finishes fun _ => (upholds_stringArg _).finishes fun _ =>
    (upholds_localAt _).finishes fun _ => finishes_get_bind fun _ =>
      (upholds_tableSet _ _ _).finishes fun _ => finishes_ret0

/-! ### The shared store -/

theorem confined_copy (r : Ref) : Confined (onHeap (Heap.copy r) : Action F Ref) := by
  refine confined_of_yields (R := fun _ _ _ => True) fun hm => yields_onHeap (R := fun _ _ => True)
    reliance_arbitrary hm
    ((Heap.evolves_copy (A := {e | Arbitrary _ e}) hm.wellFormed fun _ _ => hm.nil).imp
      (fun _ h' h => ⟨?_, trivial⟩) ?_)
  · rcases h with ⟨_, rfl⟩ | n
    · exact .refl hm.wellFormed
    · exact n.evolves
  · rintro _ _ rfl
    exact .refl hm.wellFormed

theorem confined_ownedCopy (r : Ref) : Confined (ownedCopy r : Action F Ref) :=
  (confined_copy r).bind fun _ => (confined_setPermanent _ true).bind fun _ => confined_pure _

theorem confined_replaceOwned (old new : Ref) : Confined (replaceOwned old new : Action F Ref) := by
  rw [replaceOwned]
  split
  · exact confined_pure _
  · exact (confined_ownedCopy new).bind fun _ => (confined_setPermanent old false).bind
      fun _ => confined_pure _

theorem confined_storeVersion (position : Nat) (v : Version) :
    Confined (storeVersion position v : Action F Unit) := by
  refine confined_get_bind fun m => ?_
  cases m.stigmergy.entries[position]? with
  | none => exact confined_modify fun _ => rfl
  | some old => exact (confined_replaceOwned _ _).bind fun _ => confined_modify fun _ => rfl

theorem confined_insertVersion (key : NameId) (v : Version) :
    Confined (insertVersion key v : Action F Unit) :=
  confined_get_bind fun _ => (confined_ownedCopy _).bind fun _ => confined_modify fun _ => rfl

omit [Lasting I] in
theorem upholds_storeVersion [Patient I] (position : Nat) (v : Version) :
    Upholds I (storeVersion position v : Action F Unit) :=
  (confined_storeVersion position v).upholds (Patient.store position v)

omit [Lasting I] in
theorem upholds_insertVersion [Patient I] (key : NameId) (v : Version) :
    Upholds I (insertVersion key v : Action F Unit) :=
  (confined_insertVersion key v).upholds (Patient.insert key v)

omit [Lasting I] in
theorem upholds_sendEntry [Patient I] (op : StigmergyOp) (key : NameId) (position : Nat) :
    Upholds I (sendEntry op key position : Action F Unit) := by
  refine upholds_get_bind fun m => ?_
  cases m.stigmergy.entries[position]? with
  | none => exact upholds_stray
  | some e => exact upholds_send _

/-- Starting over lets every value of the store be collected. -/
theorem confined_resetStigmergy : Confined (resetStigmergy : Action F Unit) := by
  intro m hm
  have fold : ∀ (l : List StigmergyEntry) (h : Heap), h.WellFormed → h.Tidy →
      (l.foldl (fun h e => h.clearPermanent e.value) h).WellFormed
        ∧ (l.foldl (fun h e => h.clearPermanent e.value) h).Tidy
        ∧ ∀ r, h.Stays (l.foldl (fun h e => h.clearPermanent e.value) h) r := by
    intro l
    induction l with
    | nil => exact fun h wf tidy => ⟨wf, tidy, .refl h⟩
    | cons e l ih =>
      intro h wf tidy
      have ev : Heap.Evolves {e.value} ∅ h _ := Heap.evolves_setPermanent wf e.value false
      obtain ⟨wf', tidy', stays⟩ := ih _ ev.wellFormed (ev.tidy tidy)
      exact ⟨wf', tidy', fun r =>
        (Heap.stays_setPermanent wf.layout e.value false r).trans (stays r)⟩
  obtain ⟨wf, tidy, stays⟩ := fold m.stigmergy.entries.toList m.heap hm.wellFormed hm.tidy
  rw [Array.foldl_toList] at wf tidy stays
  exact ends_modify (within_of_heap hm wf tidy rfl rfl rfl rfl fun r _ => stays r)

theorem upholds_resetStigmergy : Upholds I (resetStigmergy : Action F Unit) :=
  confined_resetStigmergy.upholds Patient.reset

theorem finishes_stigmergyCreate : Finishes I (stigmergyCreate : Action F Unit) :=
  (upholds_requireArgs _).finishes fun _ => (upholds_intArg _).finishes fun _ =>
    (upholds_localAt _).finishes fun _ => upholds_resetStigmergy.finishes fun _ =>
      (upholds_methodTable _).finishes fun _ => (upholds_setField _ _ _).finishes fun _ =>
        (upholds_push _).finishes fun _ => finishes_ret1

theorem finishes_stigmergyPut : Finishes I (stigmergyPut : Action F Unit) := by
  refine (upholds_requireArgs _).finishes fun _ => (upholds_stringArg _).finishes fun key =>
    (upholds_localAt _).finishes fun _ => finishes_get_bind fun m => ?_
  cases m.stigmergy.position? key with
  | some position =>
    exact (upholds_storeVersion _ _).finishes fun _ => (upholds_sendEntry _ _ _).finishes
      fun _ => finishes_ret0
  | none =>
    exact (upholds_require _ _).finishes fun _ => (upholds_insertVersion _ _).finishes fun _ =>
      finishes_get_bind fun _ => (upholds_sendEntry _ _ _).finishes fun _ => finishes_ret0

theorem finishes_stigmergyGet : Finishes I (stigmergyGet : Action F Unit) := by
  refine (upholds_requireArgs _).finishes fun _ => (upholds_stringArg _).finishes fun key =>
    finishes_get_bind fun m => ?_
  cases m.stigmergy.position? key with
  | some position =>
    exact (upholds_sendEntry _ _ _).finishes fun _ => (upholds_push _).finishes
      fun _ => finishes_ret1
  | none =>
    exact (upholds_send _).finishes fun _ => upholds_pushNil.finishes fun _ => finishes_ret1

theorem finishes_stigmergySize : Finishes I (stigmergySize : Action F Unit) :=
  (upholds_requireArgs _).finishes fun _ => finishes_get_bind fun _ =>
    (upholds_pushInt _).finishes fun _ => finishes_ret1

theorem finishes_stigmergyOnconflict : Finishes I (stigmergyOnconflict : Action F Unit) :=
  (upholds_requireArgs _).finishes fun _ => (upholds_closureArg _).finishes fun _ =>
    Upholds.finishes (upholds_adjust fun _ => rfl) fun _ => finishes_ret0

theorem finishes_stigmergyOnconflictlost : Finishes I (stigmergyOnconflictlost : Action F Unit) :=
  (upholds_requireArgs _).finishes fun _ => (upholds_closureArg _).finishes fun _ =>
    Upholds.finishes (upholds_adjust fun _ => rfl) fun _ => finishes_ret0

/-! ### Swarms -/

theorem upholds_swarmOfInt (i : Int16) : Upholds I (swarmOfInt i : Action F UInt8) :=
  (upholds_require _ _).bind fun _ => upholds_pure _

theorem upholds_selfSwarm : Upholds I (selfSwarm : Action F UInt8) :=
  (upholds_localAt _).bind fun _ => (upholds_expectTable _).bind fun _ =>
    (upholds_field _ _).bind fun _ => upholds_get_bind fun _ => (upholds_orFail _ _).bind
      fun _ => upholds_swarmOfInt _

theorem upholds_setMembership (member : Bool) :
    Upholds I (setMembership member : Action F Unit) := by
  refine upholds_selfSwarm.bind fun swarm => upholds_get_bind fun m => ?_
  obtain ⟨announcement, membership⟩ := m.membership.setMember m.robot swarm member
  refine Upholds.bind (upholds_adjust fun _ => rfl) fun _ => ?_
  cases announcement with
  | some message => exact upholds_send _
  | none => exact upholds_pure _

theorem finishes_swarmCreate : Finishes I (swarmCreate : Action F Unit) :=
  (upholds_requireArgs _).finishes fun _ => (upholds_intArg _).finishes fun _ =>
    (upholds_swarmOfInt _).finishes fun _ => (upholds_localAt _).finishes fun _ =>
      (upholds_methodTable _).finishes fun _ => (upholds_setField _ _ _).finishes fun _ =>
        (upholds_push _).finishes fun _ => finishes_ret1

theorem finishes_swarmIn : Finishes I (swarmIn : Action F Unit) :=
  (upholds_requireArgs _).finishes fun _ => upholds_selfSwarm.finishes fun _ =>
    finishes_get_bind fun _ => (upholds_pushInt _).finishes fun _ => finishes_ret1

theorem finishes_swarmSelect : Finishes I (swarmSelect : Action F Unit) :=
  (upholds_requireArgs _).finishes fun _ => (upholds_localAt _).finishes fun _ =>
    finishes_get_bind fun _ => (upholds_setMembership _).finishes fun _ => finishes_ret0

theorem finishes_swarmExec {call : Caller F}
    (hcall : ∀ closure args, Upholds I (call closure args)) : Finishes I (swarmExec call) := by
  refine (upholds_requireArgs _).finishes fun _ => (upholds_closureArg _).finishes fun _ =>
    upholds_selfSwarm.finishes fun _ => finishes_get_bind fun _ => ?_
  simp only
  split
  · exact (hcall _ _).finishes fun _ => finishes_ret0
  · exact finishes_ret0

/-! ### All of them -/

theorem finishes_writeLog : Finishes I (writeLog : Action F Unit) :=
  finishes_get_bind fun _ => (upholds_touch _).finishes fun _ => finishes_get_bind fun _ =>
    (upholds_describeLocals _ _).finishes fun _ => finishes_get_bind fun _ =>
      (upholds_emit _).finishes fun _ => finishes_ret0

/-- A standard host function returns to its caller. -/
theorem finishes_runPrimitive {call : Caller F}
    (hcall : ∀ closure args, Upholds I (call closure args)) (p : Primitive) :
    Finishes I (runPrimitive call p) := by
  have derived : ∀ {f : View → Action F Unit}, (∀ view, Finishes I (f view)) →
      Finishes I (derivedView >>= f) := upholds_derivedView.finishes
  unfold runPrimitive
  cases p with
  | log => exact finishes_writeLog
  | neighborsBroadcast => exact finishes_neighborsBroadcast
  | neighborsListen => exact finishes_neighborsListen
  | neighborsIgnore => exact finishes_neighborsIgnore
  | neighborsGet => exact finishes_neighborsGet _
  | neighborsForeach => exact finishes_neighborsForeach hcall _
  | neighborsMap => exact finishes_neighborsMap hcall _
  | neighborsReduce => exact finishes_neighborsReduce hcall _
  | neighborsFilter => exact finishes_neighborsFilter hcall _
  | neighborsCount => exact finishes_neighborsCount _
  | neighborsKin | neighborsNonkin => exact finishes_neighborsKinship _ _
  | derivedGet => exact derived finishes_neighborsGet
  | derivedForeach => exact derived (finishes_neighborsForeach hcall)
  | derivedMap => exact derived (finishes_neighborsMap hcall)
  | derivedReduce => exact derived (finishes_neighborsReduce hcall)
  | derivedFilter => exact derived (finishes_neighborsFilter hcall)
  | derivedCount => exact derived finishes_neighborsCount
  | derivedKin | derivedNonkin => exact derived (finishes_neighborsKinship _)
  | stigmergyCreate => exact finishes_stigmergyCreate
  | stigmergyPut => exact finishes_stigmergyPut
  | stigmergyGet => exact finishes_stigmergyGet
  | stigmergySize => exact finishes_stigmergySize
  | stigmergyOnconflict => exact finishes_stigmergyOnconflict
  | stigmergyOnconflictlost => exact finishes_stigmergyOnconflictlost
  | swarmCreate => exact finishes_swarmCreate
  | swarmJoin | swarmLeave =>
    exact (upholds_requireArgs _).finishes fun _ => (upholds_setMembership _).finishes
      fun _ => finishes_ret0
  | swarmIn => exact finishes_swarmIn
  | swarmSelect => exact finishes_swarmSelect
  | swarmExec => exact finishes_swarmExec hcall

/-- Without functions of the embedder, a number that is not a standard function's is a fault. -/
theorem finishes_runHost [HostFunctions F] {call : Caller F}
    (hcall : ∀ closure args, Upholds I (call closure args)) (number : UInt16) :
    Finishes I (runHost call number) := by
  rw [runHost]
  cases Primitive.ofId? number with
  | some p => exact finishes_runPrimitive hcall p
  | none =>
    intro c m hc hi
    refine ends_get_bind ?_
    rw [hc.standard.functions]
    exact ends_throw ⟨.refl hc.standard, hi⟩

/-- A call, when what host functions call back is confined. -/
theorem ends_callHost [HostFunctions F] {m : Machine F} (hm : m.Standard) {call : Caller F}
    (hcall : ∀ closure args, Confined (call closure args)) :
    Ends (Machine.call (runHost call)) m (fun _ m' => ∃ argc, m.Operands argc
        ∧ (Opened (m.stack.depth - argc - 2) m m' ∨ Returned (m.stack.depth - argc - 2) m m'))
      fun _ m' => AfterCall m m' :=
  (ends_call hm trivial (finishes_runHost fun closure args =>
    (hcall closure args).upholds_true)).imp (fun _ _ h => h.1) fun _ _ h => h.1

end Machine

end SwarmVm
