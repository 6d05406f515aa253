import SwarmVm.Proofs.Machine.Matching

/-!
# Calls that fail

A call is checked, and its objects are made, before the stack is touched. So a call that fails up to
that point has made some objects and nothing else: the caller still has its operands, its floor, its
locals and as many open calls as before. The step that made it leaves the program counter where it
was. When the error is cleared, the next step collects the objects that were made in vain, keeps
those on the stack, and makes the same call again.

For code there is no other way to fail. A host function, however, runs as a part of the call that
opens it, and when it fails, or has not returned, the call fails with it; by then the operands are
gone, the bookkeeping is in their place, and nothing puts them back.

## Main definitions

* `Machine.SameFrame` — the stack, the locals and the number of open calls are the same
* `Machine.EntersHost` — the call gets as far as a host function
* `Machine.atCall` — the machine in which a step makes a call

## Main results

* `Machine.grown_of_call_error` — what a failed call leaves
* `Machine.step_eq_call` — a step that makes a call
* `Machine.failed_call_repeats` — a failed call can be made again
* `Machine.failed_call_loses_operands` — unless a host function has failed
-/

namespace SwarmVm

namespace Machine

open Heap (Unaltered reliance_arbitrary)

variable {F : Type} {m m' : Machine F}

/-! ### What a failed call leaves -/

/-- The stack and its floor, the locals and the number of open calls are the same. -/
structure SameFrame (m m' : Machine F) : Prop where
  /-- The stack, with its floor. -/
  stack : m'.stack = m.stack
  /-- The locals. -/
  locals : m'.locals = m.locals
  /-- The number of open calls. -/
  frameDepth : m'.frameDepth = m.frameDepth

theorem SameFrame.symm (f : SameFrame m m') : SameFrame m' m :=
  ⟨f.stack.symm, f.locals.symm, f.frameDepth.symm⟩

theorem SameFrame.trans {m'' : Machine F} (f : SameFrame m m') (f' : SameFrame m' m'') :
    SameFrame m m'' :=
  ⟨f'.stack.trans f.stack, f'.locals.trans f.locals, f'.frameDepth.trans f.frameDepth⟩

/-- The call whose operands are on the stack gets as far as a host function. -/
def EntersHost (m : Machine F) : Prop := ∃ id m₁, enter m = .ok (.host id) m₁

/-- A call that fails on the way has made some objects, and that is all. -/
theorem grown_of_call_error (hm : m.Sound) {host : UInt16 → Action F Unit} {e : Halt}
    (hs : call host m = .error e m') (hentry : ¬ m.EntersHost) :
    Grown m m' ∧ ∃ fault, e = .fault fault := by
  have hcall : call host m = EStateM.bind enter _ m := rfl
  rw [hcall, EStateM.bind] at hs
  cases he : enter m with
  | error e₁ m₁ =>
    simp only [he, EStateM.Result.error.injEq] at hs
    obtain ⟨rfl, rfl⟩ := hs
    obtain ⟨hne, -⟩ := (entered_enter reliance_arbitrary hm.reliable).of_error he
    refine ⟨(begun_enter hm).of_error he, ?_⟩
    cases e₁ with
    | fault fault => exact ⟨fault, rfl⟩
    | outOfFuel => exact absurd rfl hne
  | ok target m₁ =>
    simp only [he] at hs
    cases target with
    | code address => cases hs
    | host id => exact absurd ⟨id, m₁, he⟩ hentry

theorem Grown.sameFrame (g : Grown m m') : SameFrame m m' := by
  obtain ⟨h, -, -, rfl⟩ := g
  exact ⟨rfl, rfl, rfl⟩

/-! ### Steps that make a call -/

/-- The machine in which a step makes a call: garbage has been collected, and the program counter is
past the instruction. -/
def atCall (m : Machine F) : Machine F :=
  { stateAfter collectGarbage m with
    log := (stateAfter collectGarbage m).log.add (.fetched m.pc .call)
    pc := m.pc + 1 }

/-- An action whose fault is reported, with the program counter put back. -/
def reporting (pc : UInt16) (x : Action F Unit) : Action F Unit := do
  match ← attempt x with
  | .ok _ => pure ()
  | .error e =>
    modify fun m => { m with pc }
    setError e

/-- The machine is ready for a step that makes a call: there is room for the roots of a collection,
and the instruction is a call. -/
structure ReadyToCall (m : Machine F) : Prop where
  /-- The machine is ready. -/
  state : m.state = .ready
  /-- There is room. -/
  room : m.stack.hasRoom m.ambient.length = true
  /-- The instruction is a call. -/
  fetch : m.fetch = .ok (.call, none)

theorem atCall_of_room (hroom : m.stack.hasRoom m.ambient.length = true) :
    ∃ log, m.atCall = { m with
      heap := (m.heap.collect (m.stack.slots.toList ++ m.ambient)).2, log, pc := m.pc + 1 } := by
  obtain ⟨log, hc⟩ := collectGarbage_of_room hroom
  rw [atCall, stateAfter, hc]
  exact ⟨_, rfl⟩

theorem Sound.atCall (hm : m.Sound) (hroom : m.stack.hasRoom m.ambient.length = true) :
    m.atCall.Sound := by
  obtain ⟨log, he⟩ := atCall_of_room hroom
  rw [he]
  exact ⟨Heap.wellFormed_collect hm.wellFormed _, Heap.tidy_collect hm.wellFormed.layout hm.tidy _,
    hm.floor, hm.ceiling⟩

theorem SameFrame.atCall (hroom : m.stack.hasRoom m.ambient.length = true) :
    SameFrame m m.atCall := by
  obtain ⟨log, he⟩ := atCall_of_room hroom
  rw [he]
  exact ⟨rfl, rfl, rfl⟩

/-- What is on the stack when the step begins is there when the call is made. -/
theorem unaltered_atCall (hm : m.Sound) (hroom : m.stack.hasRoom m.ambient.length = true) {r : Ref}
    (hr : r ∈ m.stack.slots.toList) (hv : m.heap.isValid r = true) :
    Unaltered m.heap m.atCall.heap r := by
  obtain ⟨log, he⟩ := atCall_of_room hroom
  rw [he]
  refine Heap.unaltered_collect hm.wellFormed ((Heap.isValid_collect_iff hm.wellFormed.layout).2 ?_)
  exact ⟨hv, r, hv, .inl (List.mem_append_left _ hr), .refl⟩

theorem reporting_of_ok {x : Action F Unit} (pc : UInt16) (hx : x m = .ok () m') :
    reporting pc x m = .ok () m' := by
  simp only [reporting, bind, EStateM.bind, attempt, hx]
  rfl

theorem setError_eq (m : Machine F) (e : Fault) : ∃ log, setError e m = .ok () { m with
    state := .error, error := some e, log, reports := m.reports.push e } := by
  have hset : setError e m
      = (if m.receiver = .log then emit (.faulted e) else pure () : Action F Unit)
        { m with state := .error, error := some e, reports := m.reports.push e } := rfl
  rw [hset]
  split
  · exact ⟨_, rfl⟩
  · exact ⟨_, rfl⟩

theorem reporting_of_error {x : Action F Unit} {e : Fault} (pc : UInt16)
    (hx : x m = .error (.fault e) m') : ∃ log reports, reporting pc x m = .ok () { m' with
      pc, state := .error, error := some e, log, reports } := by
  obtain ⟨log, hset⟩ := setError_eq { m' with pc } e
  refine ⟨log, m'.reports.push e, ?_⟩
  simp only [reporting, bind, EStateM.bind, attempt, hx]
  exact hset

variable [HostFunctions F] {fuel : Nat}

omit [HostFunctions F] in
theorem execute_of_fetch {host : UInt16 → Action F Unit} (hf : m.fetch = .ok (.call, none)) :
    execute host m = call host
      { m with log := m.log.add (.fetched m.pc .call), pc := m.pc + 1 } := by
  have hget : ∀ f : Machine F → Action F Unit, (get >>= f) m = f m m := fun _ => rfl
  simp only [execute, hget, hf]
  rfl

theorem step_eq_reporting (hready : m.state = .ready) :
    step fuel m = reporting m.pc (advance fuel) m := by
  change (if m.state = .ready then reporting m.pc (advance fuel) else pure () : Action F Unit) m = _
  rw [if_pos hready]

/-- The step makes the call, and reports its fault. -/
theorem step_eq_call (hm : m.ReadyToCall) :
    step fuel m = reporting m.pc (call (runHost (callClosure fuel))) m.atCall := by
  have hadvance : advance fuel m = call (runHost (callClosure fuel)) m.atCall := by
    obtain ⟨log, hc⟩ := collectGarbage_of_room hm.room
    change EStateM.bind collectGarbage (fun _ => execute (runHost (callClosure fuel))) m = _
    rw [EStateM.bind, atCall, stateAfter, hc]
    exact execute_of_fetch hm.fetch
  have hreport : ∀ (x : Action F Unit) (m₁ : Machine F), reporting m.pc x m₁
      = EStateM.bind (attempt x) (fun a => match a with
        | .ok _ => pure ()
        | .error e => do
          modify fun m₂ => { m₂ with pc := m.pc }
          setError e) m₁ := fun _ _ => rfl
  rw [step_eq_reporting hm.state, hreport, hreport, EStateM.bind, EStateM.bind, attempt, attempt,
    hadvance]

/-- **A call that fails can be made again.** A call that fails before it has got to a host function
leaves the stack and its floor, the locals and the number of open calls as they are. A step that
makes such a call reports the error; when the error is cleared, the next step makes the call again,
from the same frame and the same address, and the objects among its operands are as they were. -/
theorem failed_call_repeats (hm : m.Sound) :
    (∀ host e m', call host m = .error e m' → ¬ m.EntersHost → SameFrame m m')
    ∧ (m.ReadyToCall → ∀ fuel,
      step fuel m = reporting m.pc (call (runHost (callClosure fuel))) m.atCall
      ∧ ∀ e m₁, call (runHost (callClosure fuel)) m.atCall = .error e m₁ → ¬ m.atCall.EntersHost →
        ∃ m' again, step fuel m = .ok () m' ∧ m'.state = .error ∧ SameFrame m m'
          ∧ clearError m' = .ok () again ∧ SameFrame m again
          ∧ step fuel again = reporting again.pc (call (runHost (callClosure fuel))) again.atCall
          ∧ SameFrame m.atCall again.atCall ∧ again.atCall.pc = m.atCall.pc
          ∧ ∀ r ∈ m.stack.slots.toList, m.heap.isValid r = true →
            Unaltered m.heap again.atCall.heap r) := by
  refine ⟨fun host e m' hs hentry => (grown_of_call_error hm hs hentry).1.sameFrame,
    fun hr fuel => ⟨step_eq_call hr, fun e m₁ hs hentry => ?_⟩⟩
  obtain ⟨g, fault, rfl⟩ := grown_of_call_error (hm.atCall hr.room) hs hentry
  obtain ⟨h, hg, -, rfl⟩ := g
  obtain ⟨log, reports, hreport⟩ := reporting_of_error m.pc hs
  -- once the error is cleared, nothing but the heap and what has been reported differs from `m`
  let again : Machine F := { m with heap := h, state := .ready, error := none, log, reports }
  have hclear : { { m.atCall with heap := h } with
      pc := m.pc, state := .error, error := some fault, log, reports }
      = { again with state := .error, error := some fault } := by
    obtain ⟨_, he⟩ := atCall_of_room hr.room
    rw [he]
  have hsound : again.Sound :=
    ⟨hg.wellFormed, hg.tidy (hm.atCall hr.room).tidy, hm.floor, hm.ceiling⟩
  have hready : again.ReadyToCall := ⟨rfl, hr.room, hr.fetch⟩
  have frame : SameFrame m again := ⟨rfl, rfl, rfl⟩
  rw [hclear, ← step_eq_call hr] at hreport
  refine ⟨_, again, hreport, rfl, ⟨rfl, rfl, rfl⟩, rfl, frame, step_eq_call hready,
    (SameFrame.atCall hr.room).symm.trans (frame.trans (.atCall hready.room)), rfl, ?_⟩
  intro r hr' hv
  have kept := unaltered_atCall hm hr.room hr' hv
  have spared := hg.spares.unaltered kept.isValid
  exact (kept.trans spared).trans (unaltered_atCall hsound hready.room hr' spared.isValid)

/-! ### Two calls that fail -/

/-- A machine that is about to call a closure with one argument. -/
def aboutToCall (c : Closure) : Machine Empty :=
  [Request.load [0, 0, Opcode.nop.byte, Opcode.call.byte], .alloc (.int 7), .alloc (.int 1),
    .alloc (.closure c), .push 5, .push 6, .push 7].foldl (fun m q => stateAfter (q.perform 1) m)
    (blank { heapSize := 192 } 0 1 2 3 smallHeap)

theorem resting_aboutToCall (c : Closure) : Resting (aboutToCall c) := by
  have hb : Resting (blank { heapSize := 192 } 0 1 2 3 smallHeap : Machine Empty) :=
    .blank (s := { heapSize := 192 }) (by decide) (by decide) coreObjects_small
  refine hb.foldl fun q hq m => ?_
  simp only [List.mem_cons, List.not_mem_nil, or_false] at hq
  rcases hq with rfl | rfl | rfl | rfl | rfl | rfl | rfl <;> trivial

theorem Resting.sound {m : Machine F} (hm : Resting m) : m.Sound := by
  obtain ⟨d, hd⟩ := hm.rested
  exact hd.anyLocals.standard.toSound

omit [HostFunctions F] in
/-- The machine in which the call is made, if the collection before it keeps the marked objects. -/
theorem atCall_of_marks {m : Machine F} {marks : Array Bool} (hm : m.Marks marks) :
    m.atCall = { m.swept marks with
      log := (m.swept marks).log.add (.fetched m.pc .call), pc := m.pc + 1 } := by
  rw [atCall, stateAfter, collectGarbage_of_marks hm]

theorem astray_evaluates :
    let m := aboutToCall (.ofCode 0x400)
    let atCall := { m.swept marksBefore with
      log := (m.swept marksBefore).log.add (.fetched m.pc .call), pc := m.pc + 1 }
    (m.state = .ready ∧ m.stack.hasRoom m.ambient.length = true ∧ m.fetch = .ok (.call, none))
    ∧ m.stack.slots = #[5, 6, 7] ∧ m.heap.isValid 7 = true ∧ m.Marks marksBefore
    ∧ answers enter atCall = false
    ∧ answers (call (runHost (callClosure 1))) atCall = false := by
  rw [aboutToCall, smallHeap_eq]
  decide +kernel

/-- The closure leads out of the code, so the call fails, and can be made again. -/
theorem failed_call_repeats_astray : ∃ m : Machine Empty, m = aboutToCall (.ofCode 0x400)
    ∧ m.Sound ∧ m.ReadyToCall ∧ ¬ m.atCall.EntersHost
    ∧ ∃ m' again, step 1 m = .ok () m' ∧ m'.state = .error ∧ clearError m' = .ok () again
      ∧ SameFrame m again ∧ SameFrame m.atCall again.atCall
      ∧ Unaltered m.heap again.atCall.heap 7 := by
  obtain ⟨⟨hstate, hroom, hfetch⟩, hstack, hvalid, hmarks, henter, hcall⟩ := astray_evaluates
  have hm := (resting_aboutToCall (.ofCode 0x400)).sound
  have hr : (aboutToCall (.ofCode 0x400)).ReadyToCall := ⟨hstate, hroom, hfetch⟩
  rw [← atCall_of_marks hmarks] at henter hcall
  obtain ⟨e₀, m₀, henter⟩ := exists_error_of_answers henter
  obtain ⟨e₁, m₁, hcall⟩ := exists_error_of_answers hcall
  have hentry : ¬ (aboutToCall (.ofCode 0x400)).atCall.EntersHost := by
    rintro ⟨id, m₂, hhost⟩
    rw [henter] at hhost
    cases hhost
  obtain ⟨m', again, hstep, herror, -, hclear, frame, -, frame', -, operands⟩ :=
    ((failed_call_repeats hm).2 hr 1).2 e₁ m₁ hcall hentry
  exact ⟨_, rfl, hm, hr, hentry, m', again, hstep, herror, hclear, frame, frame',
    operands 7 (by rw [hstack]; simp) hvalid⟩

/-- A host function that wants two arguments is called with one. The call fails, and the operands
are gone: the bookkeeping is on the stack, the floor is above it, the locals are those of the host
function, and its call is open. -/
theorem failed_call_loses_operands : ∃ m m' : Machine Empty, Resting m ∧ m.ReadyToCall
    ∧ (∃ e, call (runHost (callClosure 1)) m = .error e m')
    ∧ m.stack.slots = #[5, 6, 7] ∧ m.stack.base = 0 ∧ m.locals = 4 ∧ m.frameDepth = 0
    ∧ m'.stack.slots = #[9, 4, 10] ∧ m'.stack.base = 3 ∧ m'.locals = 8 ∧ m'.frameDepth = 1 := by
  have hrun : let m := aboutToCall (.ofHost 1)
      let m' := stateAfter (call (runHost (callClosure 1))) m
      (m.state = .ready ∧ m.stack.hasRoom m.ambient.length = true ∧ m.fetch = .ok (.call, none))
      ∧ answers (call (runHost (callClosure 1))) m = false
      ∧ m.stack.slots = #[5, 6, 7] ∧ m.stack.base = 0 ∧ m.locals = 4 ∧ m.frameDepth = 0
      ∧ m'.stack.slots = #[9, 4, 10] ∧ m'.stack.base = 3 ∧ m'.locals = 8 ∧ m'.frameDepth = 1 := by
    rw [aboutToCall, smallHeap_eq]
    decide +kernel
  obtain ⟨⟨hstate, hroom, hfetch⟩, hfails, hframes⟩ := hrun
  obtain ⟨e, m', hcall⟩ := exists_error_of_answers hfails
  rw [stateAfter, hcall] at hframes
  exact ⟨_, m', resting_aboutToCall _, ⟨hstate, hroom, hfetch⟩, ⟨e, hcall⟩, hframes⟩

end Machine

end SwarmVm
