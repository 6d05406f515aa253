import SwarmVm.Proofs.Machine.Held
import SwarmVm.Proofs.Machine.HostCalls
import SwarmVm.Proofs.Neighbors.Loops

/-!
# Calls that watch an object

Host code that holds an index while it calls back must hope that no collection takes the object. To
say so of a call, the call is made with collections that stop it as soon as they take the object.
Until then it does the same as ever: each of its steps follows that of the call which is not
stopped, through any number of instructions, host functions and calls inside calls.

A watched call that answers is therefore the call itself, and in it the object was there all the
time.

In the same way a call may be stopped at its end, unless what it has done passes a check. A call that
is not stopped is the call itself, and passes.

## Main definitions

* `Machine.watch` — a collection that stops when it takes an object
* `Machine.callChecked` — a call that stops unless it passes a check
* `Machine.Follows`, `Machine.Refines` — to do the same, or to stop

## Main results

* `Machine.watch_eq_of_reachable` — what can be reached does not stop a collection
* `Machine.upholds_watch` — the object is there as long as the watch goes on
* `Machine.refines_callWith` — watched calls do what calls do, or stop
* `Machine.refines_callChecked` — so do checked calls
-/

namespace SwarmVm

namespace Machine

variable {F α β : Type} {entry m m' : Machine F} {r : Ref} {v : Value}

/-! ### To do the same, or to stop -/

/-- From `m`, the first action does what the second one does, or it stops. -/
def Follows (x y : Action F α) (m : Machine F) : Prop :=
  x m = y m ∨ ∃ m', x m = .error .outOfFuel m'

namespace Follows

variable {x y : Action F α} {f g : α → Action F β}

theorem refl (x : Action F α) (m : Machine F) : Follows x x m := .inl rfl

theorem of_ok {a : α} (h : Follows x y m) (hx : x m = .ok a m') : y m = .ok a m' := by
  rcases h with h | ⟨m'', h⟩
  · rw [← h, hx]
  · rw [hx] at h
    cases h

theorem of_error {e : Halt} (h : Follows x y m) (hx : x m = .error e m') (he : e ≠ .outOfFuel) :
    y m = .error e m' := by
  rcases h with h | ⟨m'', h⟩
  · rw [← h, hx]
  · rw [hx] at h
    cases h
    exact absurd rfl he

theorem bind (h : Follows x y m) (hf : ∀ a m', x m = .ok a m' → Follows (f a) (g a) m') :
    Follows (x >>= f) (y >>= g) m := by
  have hx : (x >>= f) m = EStateM.bind x f m := rfl
  have hy : (y >>= g) m = EStateM.bind y g m := rfl
  rw [Follows, hx, hy, EStateM.bind, EStateM.bind]
  rcases h with h | ⟨m', h⟩
  · rw [← h]
    cases hs : x m with
    | ok a m' => exact hf a m' hs
    | error e m' => exact .inl rfl
  · rw [h]
    exact .inr ⟨m', rfl⟩

theorem get_bind {f g : Machine F → Action F β} (h : Follows (f m) (g m) m) :
    Follows (get >>= f) (get >>= g) m := h

end Follows

/-- From every standard machine, the first action does what the second one does, or it stops. -/
def Refines (x y : Action F α) : Prop := ∀ m, m.Standard → Follows x y m

theorem Refines.refl (x : Action F α) : Refines x x := fun m _ => .refl x m

theorem Refines.trans {x y z : Action F α} (h : Refines x y) (h' : Refines y z) : Refines x z := by
  intro m hm
  rcases h m hm with he | he
  · rw [Follows, he]
    exact h' m hm
  · exact .inr he

theorem Refines.bind {x y : Action F α} {f g : α → Action F β} (h : Refines x y) (hx : Confined x)
    (hf : ∀ a, Refines (f a) (g a)) : Refines (x >>= f) (y >>= g) := by
  intro m hm
  exact (h m hm).bind fun a m' hs => hf a m' ((hx m hm).of_ok hs).standard

/-- What comes first may be the same. -/
theorem Upholds.refines {x : Action F α} {f g : α → Action F β} (hx : Upholds (fun _ => True) x)
    (hf : ∀ a, Refines (f a) (g a)) : Refines (x >>= f) (x >>= g) :=
  (Refines.refl x).bind hx.confined hf

theorem refines_get_bind {f g : Machine F → Action F β} (hf : ∀ m, Refines (f m) (g m)) :
    Refines (get >>= f) (get >>= g) := fun m hm => .get_bind (hf m m hm)

/-! ### The watch -/

/-- A collection. The machine stops instead, if the collection would take the object. -/
def watch (collect : Action F Unit) (r : Ref) : Action F Unit := fun m =>
  match collect m with
  | .ok _ m' => if m'.heap.isValid r then .ok () m' else .error .outOfFuel m
  | .error e m' => .error e m'

/-- The machine does not stop for an object that can be reached. -/
theorem watch_eq_of_reachable (hm : m.Standard) (hv : m.heap.isValid r = true)
    (hr : m.heap.Reachable (m.stack.slots.toList ++ m.ambient) r) :
    watch collectGarbage r m = collectGarbage m := by
  rw [watch]
  cases hs : collectGarbage m with
  | error e m' => rfl
  | ok u m' =>
    obtain ⟨log, rfl⟩ := ends_collectGarbage.of_ok hs
    exact if_pos ((Heap.isValid_collect_iff hm.wellFormed.layout).2 ⟨hv, hr⟩)

theorem Confined.watch {collect : Action F Unit} (hc : Confined collect) (r : Ref) :
    Confined (watch collect r) := by
  intro m hm
  rw [ends_iff, Machine.watch]
  cases hs : collect m with
  | error e m' => exact (hc m hm).of_error hs
  | ok u m' =>
    by_cases hv : m'.heap.isValid r = true
    · simp only [hv, if_true]
      exact (hc m hm).of_ok hs
    · simp only [hv]
      exact .refl hm

/-- The object stands for its value as long as it is watched. -/
theorem upholds_watch :
    Upholds (fun m => m.heap.Denotes r v) (watch collectGarbage r : Action F Unit) := by
  refine (confined_collectGarbage.watch r).upholds fun {m} hm d => ?_
  rw [ends_iff, watch]
  cases hs : collectGarbage m with
  | error e m' =>
    obtain ⟨-, rfl⟩ := ends_collectGarbage.of_error hs
    exact d
  | ok u m' =>
    by_cases hv : m'.heap.isValid r = true
    · simp only [hv, if_true]
      obtain ⟨log, rfl⟩ := ends_collectGarbage.of_ok hs
      exact d.collect hm.wellFormed.layout hv
    · simp only [hv]
      exact d

theorem refines_watch (collect : Action F Unit) (r : Ref) : Refines (watch collect r) collect := by
  intro m _
  rw [Follows, watch]
  cases collect m with
  | error e m' => exact .inl rfl
  | ok u m' =>
    by_cases hv : m'.heap.isValid r = true
    · exact .inl (if_pos hv)
    · exact .inr ⟨m, if_neg hv⟩

theorem Refines.watch {collect collect' : Action F Unit} (h : Refines collect collect') (r : Ref) :
    Refines (watch collect r) (watch collect' r) := by
  intro m hm
  rw [Follows, Machine.watch, Machine.watch]
  rcases h m hm with h | ⟨m', h⟩
  · rw [h]
    exact .inl rfl
  · rw [h]
    exact .inr ⟨m', rfl⟩

/-! ### Host functions -/

section Calls

variable {call call' : Caller F}
  (h : ∀ closure args, Refines (call closure args) (call' closure args))
  (hcall : ∀ closure args, Confined (call closure args))

include h hcall

theorem refines_run (l : Loop) (callback : Ref) (robots : List (RobotId × Option Ref)) :
    Refines (l.run call callback robots) (l.run call' callback robots) := by
  induction robots with
  | nil =>
    rw [Loop.run_nil, Loop.run_nil]
    exact .refl _
  | cons e robots ih =>
    obtain ⟨robot, stored⟩ := e
    rw [Loop.run_cons, Loop.run_cons]
    exact (l.upholds_offer robot stored).refines fun args => (h callback args).bind
      (hcall callback args) fun answer => (l.upholds_accept robot answer).refines fun _ => ih

/-- A loop, and what is the same after it. -/
theorem refines_run_bind (l : Loop) (callback : Ref) (robots : List (RobotId × Option Ref))
    (f : Unit → Action F α) :
    Refines (l.run call callback robots >>= f) (l.run call' callback robots >>= f) :=
  (refines_run h hcall l callback robots).bind (Loop.upholds_run
    (fun closure args => (hcall closure args).upholds_true) l callback robots).confined
    fun _ => .refl _

theorem refines_neighborsForeach (view : View) :
    Refines (neighborsForeach call view) (neighborsForeach call' view) :=
  (upholds_requireArgs _).refines fun _ => (upholds_closureArg _).refines fun callback =>
    (upholds_entriesOf view).refines fun robots => refines_run_bind h hcall .each callback robots _

theorem refines_neighborsMap (view : View) :
    Refines (neighborsMap call view) (neighborsMap call' view) :=
  (upholds_requireArgs _).refines fun _ => (upholds_closureArg _).refines fun callback =>
    upholds_pushDerived.refines fun result => (upholds_entriesOf view).refines fun robots =>
      refines_run_bind h hcall (.map result) callback robots _

theorem refines_neighborsFilter (view : View) :
    Refines (neighborsFilter call view) (neighborsFilter call' view) :=
  (upholds_requireArgs _).refines fun _ => (upholds_closureArg _).refines fun callback =>
    upholds_pushDerived.refines fun result => (upholds_entriesOf view).refines fun robots =>
      refines_run_bind h hcall (.filter result) callback robots _

theorem refines_neighborsReduce (view : View) :
    Refines (neighborsReduce call view) (neighborsReduce call' view) :=
  (upholds_requireArgs _).refines fun _ => (upholds_closureArg _).refines fun callback =>
    (upholds_localAt _).refines fun _ => (upholds_push _).refines fun _ =>
      (upholds_entriesOf view).refines fun robots =>
        refines_run_bind h hcall .reduce callback robots _

theorem refines_swarmExec : Refines (swarmExec call) (swarmExec call') := by
  refine (upholds_requireArgs _).refines fun _ => (upholds_closureArg _).refines fun _ =>
    upholds_selfSwarm.refines fun _ => refines_get_bind fun _ => ?_
  dsimp only
  split
  · exact (h _ _).bind (hcall _ _) fun _ => .refl _
  · exact .refl _

theorem refines_runPrimitive (p : Primitive) :
    Refines (runPrimitive call p) (runPrimitive call' p) := by
  have derived : ∀ {f g : View → Action F Unit}, (∀ view, Refines (f view) (g view)) →
      Refines (derivedView >>= f) (derivedView >>= g) := upholds_derivedView.refines
  unfold runPrimitive
  cases p with
  | neighborsForeach => exact refines_neighborsForeach h hcall _
  | neighborsMap => exact refines_neighborsMap h hcall _
  | neighborsReduce => exact refines_neighborsReduce h hcall _
  | neighborsFilter => exact refines_neighborsFilter h hcall _
  | derivedForeach => exact derived (refines_neighborsForeach h hcall)
  | derivedMap => exact derived (refines_neighborsMap h hcall)
  | derivedReduce => exact derived (refines_neighborsReduce h hcall)
  | derivedFilter => exact derived (refines_neighborsFilter h hcall)
  | swarmExec => exact refines_swarmExec h hcall
  | _ => exact .refl _

theorem refines_runHost [HostFunctions F] (number : UInt16) :
    Refines (runHost call number) (runHost call' number) := by
  rw [runHost, runHost]
  cases Primitive.ofId? number with
  | some p => exact refines_runPrimitive h hcall p
  | none =>
    intro m hm
    refine .get_bind ?_
    rw [hm.functions]
    exact .refl _ m

/-! ### Instructions -/

theorem refines_call [HostFunctions F] :
    Refines (Machine.call (runHost call)) (Machine.call (runHost call')) := by
  intro m hm
  refine Follows.bind (.refl enter m) fun target m₁ hs => ?_
  obtain ⟨argc, record, base, address, m₂, en, he⟩ :=
    (entered_enter Heap.reliance_arbitrary hm.reliable).of_ok hs
  have standard : m₁.Standard := he ▸ (en.opened hm).standard
  cases target with
  | code address => exact .refl _ m₁
  | host number =>
    exact .get_bind ((refines_runHost h hcall number m₁ standard).bind fun _ m' _ => .refl _ m')

omit h hcall in
/-- Only calls depend on what host functions do. -/
theorem perform_eq_of_ne {host host' : UInt16 → Action F Unit} {op : Opcode} (hop : op ≠ .call)
    (operand : UInt16) : perform host op operand = perform host' op operand := by
  cases op with
  | call => exact absurd rfl hop
  | _ => rfl

theorem refines_execute [HostFunctions F] :
    Refines (execute (runHost call)) (execute (runHost call')) := by
  refine refines_get_bind fun m => ?_
  cases m.fetch with
  | error e => exact .refl _
  | ok p =>
    obtain ⟨op, operand⟩ := p
    refine refines_get_bind fun m => (upholds_emit _).refines fun _ => ?_
    split
    · exact .refl _
    · refine Upholds.refines (upholds_modify fun _ => rfl) fun _ => ?_
      by_cases hop : op = .call
      · rw [hop]
        exact refines_call h hcall
      · rw [perform_eq_of_ne hop]
        exact .refl _

/-! ### Calls -/

variable [HostFunctions F] {collect collect' : Action F Unit} (hc : Refines collect collect')
  (hcollect : Confined collect)

include hc hcollect

/-- Instruction by instruction, until the call has returned. -/
theorem Progress.follows_runFrames (n : Nat) (pr : Progress entry m) :
    Follows (runFramesWith collect call entry.frameDepth n)
      (runFramesWith collect' call' entry.frameDepth n) m := by
  induction n generalizing m with
  | zero => exact .refl _ m
  | succ n ih =>
    rcases pr with ⟨c, sites, ic⟩ | re
    · have hdepth := ic.frameDepth
      have instruction : Follows (do collect; execute (runHost call))
          (do collect'; execute (runHost call')) m :=
        hc.bind hcollect (fun _ => refines_execute h hcall) m ic.standard
      have progress := (regime_inCall (fun _ => True) entry).ends_instruction
        hcollect.upholds_true (fun closure args => (hcall closure args).upholds_true)
        ⟨⟨c, sites, ic⟩, trivial⟩
      rw [Follows, runFramesWith_of_lt (by omega), runFramesWith_of_lt (by omega)]
      rcases instruction with he | ⟨m', he⟩
      · rw [← he]
        cases hs : (do collect; execute (runHost call) : Action F Unit) m with
        | error e m₁ => exact .inl rfl
        | ok u m₁ =>
          by_cases hready : m₁.state = .ready
          · simp only [hready, if_true]
            exact ih (progress.of_ok hs).1
          · exact .inl (by simp only [hready, if_false])
      · rw [he]
        exact .inr ⟨m', rfl⟩
    · have hle := re.frameDepth.le
      exact .inl ((if_pos hle).trans (if_pos hle).symm)

end Calls

theorem Follows.guarded {x y : Action F Ref} (h : Follows x y { m with state := .ready }) :
    Follows (guarded x) (guarded y) m := by
  rw [Follows, Machine.guarded, Machine.guarded]
  rcases h with h | ⟨m', h⟩
  · rw [h]
    exact .inl rfl
  · rw [h]
    exact .inr ⟨_, rfl⟩

/-- Calls with other collections do the same or stop, if these do. -/
theorem refines_callWith [HostFunctions F] {collect collect' : Action F Unit}
    (hc : Refines collect collect') (hcollect : Confined collect) (n : Nat) (closure : Ref)
    (args : List Ref) :
    Refines (callWith collect n closure args) (callWith collect' n closure args) := by
  induction n generalizing closure args with
  | zero => exact .refl _
  | succ n ih =>
    intro m hm
    have hcall : ∀ closure args, Confined (callWith collect n closure args) := fun closure args =>
      (upholds_callWith hcollect.upholds_true n closure args).confined
    have hm₀ : Standard { m with state := .ready } :=
      ⟨⟨hm.wellFormed, hm.tidy, hm.floor, hm.ceiling⟩, hm.capacity, hm.functions⟩
    refine Follows.guarded (.get_bind (Follows.bind (.refl _ _) fun _ m₁ hs₁ => ?_))
    obtain ⟨k, ld, hdepth⟩ := (ends_pushOperands hm₀ closure args).of_ok hs₁
    refine (refines_call ih hcall m₁ ld.standard).bind fun _ m₂ hs₂ => ?_
    have progress := (ld.ends_call (I := fun _ => True) hdepth trivial
      fun closure args => (hcall closure args).upholds_true).of_ok hs₂
    exact (progress.1.follows_runFrames ih hcall hc hcollect n).bind fun _ m₃ _ => .refl _ m₃

/-! ### The check -/

/-- What a check of a call looks at: the arguments, the answer, and the machine before and after. -/
abbrev Check (F : Type) : Type := List Ref → Ref → Machine F → Machine F → Bool

/-- A call whose collections may depend on its arguments. The machine stops unless the call ends well
and passes the check. -/
def callChecked [HostFunctions F] (check : Check F) (collect : List Ref → Action F Unit) (n : Nat) :
    Caller F := fun closure args m =>
  match callWith (collect args) n closure args m with
  | .ok r m' => if check args r m m' then .ok r m' else .error .outOfFuel m'
  | .error _ m' => .error .outOfFuel m'

section Checked

variable [HostFunctions F] {check : Check F} {collect : List Ref → Action F Unit} {n : Nat}
  {closure : Ref} {args : List Ref} {e : Halt}

theorem callChecked_eq_ok (hrun : callChecked check collect n closure args m = .ok r m') :
    callWith (collect args) n closure args m = .ok r m' ∧ check args r m m' = true := by
  rw [callChecked] at hrun
  cases hs : callWith (collect args) n closure args m with
  | error e m₁ =>
    rw [hs] at hrun
    cases hrun
  | ok r₁ m₁ =>
    rw [hs] at hrun
    by_cases hp : check args r₁ m m₁ = true
    · simp only [hp, if_true] at hrun
      cases hrun
      exact ⟨rfl, hp⟩
    · simp only [hp] at hrun
      cases hrun

theorem callChecked_eq_error (hrun : callChecked check collect n closure args m = .error e m') :
    e = .outOfFuel := by
  rw [callChecked] at hrun
  cases hs : callWith (collect args) n closure args m with
  | error e m₁ =>
    rw [hs] at hrun
    cases hrun
    rfl
  | ok r₁ m₁ =>
    rw [hs] at hrun
    by_cases hp : check args r₁ m m₁ = true
    · simp only [hp, if_true] at hrun
      cases hrun
    · simp only [hp] at hrun
      cases hrun
      rfl

theorem confined_callChecked (hcollect : ∀ args, Confined (collect args)) (closure : Ref)
    (args : List Ref) : Confined (callChecked check collect n closure args) := by
  intro m hm
  have called := (upholds_callWith (hcollect args).upholds_true n closure args).confined m hm
  rw [ends_iff, callChecked]
  cases hs : callWith (collect args) n closure args m with
  | error e m₁ => exact called.of_error hs
  | ok r₁ m₁ =>
    by_cases hp : check args r₁ m m₁ = true
    · simp only [hp, if_true]
      exact called.of_ok hs
    · simp only [hp]
      exact called.of_ok hs

/-- A checked call does what the call does, or stops. -/
theorem refines_callChecked (hc : ∀ args, Refines (collect args) collectGarbage)
    (hcollect : ∀ args, Confined (collect args)) (closure : Ref) (args : List Ref) :
    Refines (callChecked check collect n closure args) (callClosure n closure args) := by
  intro m hm
  rw [Follows]
  cases hs : callChecked check collect n closure args m with
  | error e m₁ => exact .inr ⟨m₁, by rw [callChecked_eq_error hs]⟩
  | ok r₁ m₁ =>
    have called := (refines_callWith (hc args) (hcollect args) n closure args m hm).of_ok
      (callChecked_eq_ok hs).1
    rw [callWith_collectGarbage] at called
    exact .inl called.symm

end Checked

end Machine

end SwarmVm
