import SwarmVm.Proofs.Machine.HostFunctions

/-!
# The loops over robots

The four functions that call back for every robot of a view do the same thing three times over: the
arguments are made ready, the callback is called, and something is done with its answer. What they
do before and after the call is in `Loop.offer` and `Loop.accept`. So a loop over some robots and
then others is the one loop after the other, and what is true of each turn is proved once.

## Main definitions

* `Loop` — the four loops
* `Loop.offer`, `Loop.accept` — a turn, before and after the call
* `Loop.approach` — the loop up to the call for a robot

## Main results

* `Loop.run_cons` — a turn
* `Loop.run_append`, `Loop.run_eq_approach` — one loop after the other
* `Loop.upholds_run` — loops do not end conditions that last
-/

namespace SwarmVm

/-- The loops over the robots of a view. -/
inductive Loop where
  /-- The answers do not matter. -/
  | each
  /-- The answers are stored in a table. -/
  | map (result : Ref)
  /-- The values with true answers are stored in a table. -/
  | filter (result : Ref)
  /-- The answer is the accumulator of the next call. -/
  | reduce

namespace Loop

open Machine

variable {F : Type} {call : Caller F} {callback : Ref} {l : Loop} {robot : RobotId}
  {stored : Option Ref} {I : Machine F → Prop}

/-- The loop. -/
def run (call : Caller F) (callback : Ref) : Loop → List (RobotId × Option Ref) → Action F Unit
  | each => eachRobot call callback
  | map result => mapRobots call callback result
  | filter result => filterRobots call callback result
  | reduce => reduceRobots call callback

/-- The arguments of the callback for a robot. -/
def offer (l : Loop) (robot : RobotId) (stored : Option Ref) : Action F (List Ref) := do
  let r ← viewValue robot stored
  let id ← robotObject robot
  match l with
  | each | map _ => return [id, r]
  | filter _ =>
    push r
    return [id, r]
  | reduce =>
    let accumulator ← peek 0
    return [id, r, accumulator]

/-- What is done with an answer. -/
def accept (robot : RobotId) (answer : Ref) : Loop → Action F Unit
  | each => pure ()
  | map result => setRobotEntry result robot answer
  | filter result => do
    let r ← pop
    if ((← get).value answer).isTruthy then setRobotEntry result robot r
  | reduce => setPeek 0 answer

theorem run_nil : l.run call callback [] = pure () := by
  cases l with
  | each | map | filter | reduce => rfl

/-- A turn of the loop. -/
theorem run_cons (rest : List (RobotId × Option Ref)) :
    l.run call callback ((robot, stored) :: rest) = (do
      let args ← l.offer robot stored
      let answer ← call callback args
      l.accept robot answer
      l.run call callback rest) := by
  cases l with
  | each => simp [run, eachRobot, offer, accept]
  | map result => simp [run, mapRobots, offer, accept]
  | filter result =>
    have hif : ∀ (c : Bool) (x : Action F Unit),
        ((if c then x else pure ()) >>= fun _ => filterRobots call callback result rest)
          = if c then (x >>= fun _ => filterRobots call callback result rest)
            else filterRobots call callback result rest := by
      intro c x
      cases c <;> simp
    simp [run, filterRobots, offer, accept, hif]
  | reduce => simp [run, reduceRobots, offer, accept]

theorem run_append (before rest : List (RobotId × Option Ref)) :
    l.run call callback (before ++ rest)
      = (do l.run call callback before; l.run call callback rest) := by
  induction before with
  | nil => rw [run_nil, List.nil_append, pure_bind]
  | cons e before ih =>
    obtain ⟨robot, stored⟩ := e
    rw [List.cons_append, run_cons, run_cons, ih]
    simp only [bind_assoc]

/-- The loop up to the call for a robot, with the arguments of the call. -/
def approach (call : Caller F) (callback : Ref) (l : Loop) (before : List (RobotId × Option Ref))
    (robot : RobotId) (stored : Option Ref) : Action F (List Ref) := do
  l.run call callback before
  l.offer robot stored

/-- A loop comes to each of the robots. -/
theorem run_eq_approach (before behind : List (RobotId × Option Ref)) :
    l.run call callback (before ++ (robot, stored) :: behind) = (do
      let args ← l.approach call callback before robot stored
      let answer ← call callback args
      l.accept robot answer
      l.run call callback behind) := by
  rw [run_append, run_cons, approach, bind_assoc]

section Lasting

variable [Lasting I]

theorem upholds_offer (l : Loop) (robot : RobotId) (stored : Option Ref) :
    Upholds I (l.offer robot stored : Action F (List Ref)) := by
  refine (upholds_viewValue robot stored).bind fun r => (upholds_alloc _).bind fun id => ?_
  cases l with
  | each | map => exact upholds_pure _
  | filter => exact (upholds_push r).bind fun _ => upholds_pure _
  | reduce => exact (upholds_peek 0).bind fun _ => upholds_pure _

theorem upholds_accept (l : Loop) (robot : RobotId) (answer : Ref) :
    Upholds I (l.accept robot answer : Action F Unit) := by
  cases l with
  | each => exact upholds_pure _
  | map result => exact upholds_setRobotEntry _ _ _
  | filter result =>
    refine upholds_pop.bind fun r => upholds_get_bind fun m => ?_
    split
    · exact upholds_setRobotEntry _ _ _
    · exact upholds_pure _
  | reduce => exact upholds_setPeek _ _

theorem upholds_run (hcall : ∀ closure args, Upholds I (call closure args)) (l : Loop)
    (callback : Ref) (robots : List (RobotId × Option Ref)) :
    Upholds I (l.run call callback robots) := by
  cases l with
  | each => exact upholds_eachRobot hcall callback robots
  | map result => exact upholds_mapRobots hcall callback result robots
  | filter result => exact upholds_filterRobots hcall callback result robots
  | reduce => exact upholds_reduceRobots hcall callback robots

end Lasting

/-- The second argument of the callback is the value that was found. -/
theorem ends_offer (l : Loop) (robot : RobotId) (r : Ref) (m : Machine F) :
    Ends (l.offer robot (some r)) m (fun args _ => args[1]? = some r) fun _ _ => True := by
  have any : ∀ {α : Type} (x : Action F α) (m : Machine F),
      Ends x m (fun _ _ => True) fun _ _ => True := fun _ _ => ⟨fun _ => trivial, fun _ => trivial⟩
  refine ends_bind (Q := fun r' _ => r' = r) (ends_pure rfl) fun _ m₁ he => ?_
  subst he
  refine ends_bind (any _ m₁) fun id m₂ _ => ?_
  cases l with
  | each | map => exact ends_pure rfl
  | filter => exact ends_bind (any _ m₂) fun _ _ _ => ends_pure rfl
  | reduce => exact ends_bind (any _ m₂) fun _ _ _ => ends_pure rfl

end Loop

end SwarmVm
