import SwarmVm.Proofs.Machine.Lifetime

/-!
# Faults and how they are reported

A fault can come up anywhere: in an instruction, in a host function that the instruction calls, in
a closure that the host function calls back, and so on. On its way out it is answered by each of
these, and every call from host code puts the state back to what it was. Only the request that host
code has made reports it: it enters the error state, records the fault and tells the receiver.

So as long as a request is inside, no fault is recorded, none is reported, and the error state is
not entered. This is a relation between machines that instructions and host functions lead along,
whatever the machine, if it knows no functions but the standard ones. What a request does at its end
can then be read off.

## Main definitions

* `Machine.Unfaulted`, `Machine.SameFaults` — no fault was reported
* `Machine.Reporting` — no fault was reported, or one was, and it stopped the machine
* `Machine.Funnel` — the same in terms of the faults that were reported

## Main results

* `Machine.leads_callClosure_calm` — no fault is reported inside a request
* `Machine.ends_step`, `Machine.ends_run` and the like — what requests report
* `Machine.Reached.faults_reported_once` — a request reports one fault at most, and stops with it
-/

namespace SwarmVm

namespace Machine

variable {F α : Type} {m m₁ m' m'' : Machine F} {e : Fault}

/-! ### No fault is reported -/

/-- No fault has been reported from `m` to `m'`: the machine is not in the error state if it was not
there before. -/
structure Unfaulted (m m' : Machine F) : Prop where
  /-- The fault that stopped the machine is the same, -/
  error : m'.error = m.error
  /-- and so are those it has reported. -/
  reports : m'.reports = m.reports
  /-- The error state is not entered. -/
  state : m'.state = .error → m.state = .error
  /-- The machine knows the same functions. -/
  functions : m'.functions = m.functions

theorem SameControl.unfaulted (h : SameControl m m') : Unfaulted m m' :=
  ⟨h.error, h.reports, fun hs => h.state ▸ hs, h.functions⟩

theorem Unfaulted.refl (m : Machine F) : Unfaulted m m := (SameControl.refl m).unfaulted

theorem Unfaulted.trans (h : Unfaulted m m') (h' : Unfaulted m' m'') : Unfaulted m m'' :=
  ⟨h'.error.trans h.error, h'.reports.trans h.reports, fun hs => h.state (h'.state hs),
    h'.functions.trans h.functions⟩

/-- With the standard functions only, no fault has been reported. -/
def Calm (m m' : Machine F) : Prop := m.functions = #[] → Unfaulted m m'

instance roaming_calm : Roaming (Calm (F := F)) where
  same h _ := h.unfaulted
  trans h h' hf := (h hf).trans (h' ((h hf).functions.trans hf))
  jump _ _ _ := ⟨rfl, rfl, id, rfl⟩

/-- No fault has been reported, and the machine is as ready as it was. -/
structure SameFaults (m m' : Machine F) : Prop extends Unfaulted m m' where
  /-- The state is the same. -/
  sameState : m'.state = m.state

/-- With the standard functions only, it is so. -/
def Uneventful (m m' : Machine F) : Prop := m.functions = #[] → SameFaults m m'

instance roaming_uneventful : Roaming (Uneventful (F := F)) where
  same h _ := ⟨h.unfaulted, h.state⟩
  trans h h' hf :=
    have next := h' ((h hf).functions.trans hf)
    ⟨(h hf).toUnfaulted.trans next.toUnfaulted, next.sameState.trans (h hf).sameState⟩
  jump _ _ _ := ⟨⟨rfl, rfl, id, rfl⟩, rfl⟩

section Calls

variable [HostFunctions F]

theorem leads_runHost_calm {call : Caller F}
    (hcall : ∀ closure args, Leads Calm (call closure args)) (id : UInt16) :
    Leads Calm (runHost call id) := by
  rw [runHost]
  cases Primitive.ofId? id with
  | some p => exact leads_runPrimitive hcall p
  | none =>
    intro m
    refine ends_get_bind ?_
    by_cases hf : m.functions = #[]
    · rw [hf]
      exact ends_throw (Lenient.refl m)
    · exact ⟨fun _ h => absurd h hf, fun _ h => absurd h hf⟩

/-- However deep a fault comes up in a call, it is answered and not reported. -/
theorem leads_callClosure_calm (n : Nat) : ∀ closure args,
    Leads Calm (callClosure n closure args : Action F Ref) := by
  induction n with
  | zero => exact fun _ _ => leads_throw _
  | succ n ih =>
    intro closure args m
    have hhost := leads_runHost_calm ih
    have body : Leads Calm (do
        let depth := (← get).frameDepth
        pushOperands closure args
        call (runHost (callClosure n))
        runFrames (callClosure n) depth n
        pop : Action F Ref) :=
      leads_get_bind fun _ => (leads_pushOperands closure args).bind fun _ =>
        (leads_call hhost).bind fun _ => (leads_runFrames hhost
          (fun _ _ => ⟨rfl, rfl, (fun hs => nomatch hs), rfl⟩) _ n).bind fun _ => leads_pop
    -- inside, the machine is ready; afterwards its state is the one of before
    have resumed : ∀ {m₁ : Machine F}, Calm { m with state := .ready } m₁ →
        ∀ {m' : Machine F}, m'.error = m₁.error → m'.reports = m₁.reports → m'.state = m.state →
          m'.functions = m₁.functions → Calm m m' := fun h _ error reports state functions hf =>
      ⟨error.trans (h hf).error, reports.trans (h hf).reports, fun hs => state ▸ hs,
        functions.trans (h hf).functions⟩
    rw [ends_iff, callClosure, guarded]
    split
    · next hs =>
      split at hs
      · next hx =>
        cases hs
        exact resumed ((body _).of_ok hx) rfl rfl rfl rfl
      · cases hs
    · next hs =>
      split at hs
      · cases hs
      · next hx =>
        cases hs
        exact resumed ((body _).of_error hx) rfl rfl rfl rfl

theorem leads_callClosure_uneventful (n : Nat) (closure : Ref) (args : List Ref) :
    Leads Uneventful (callClosure n closure args : Action F Ref) := fun m =>
  ((leads_callClosure_calm n closure args m).and (leads_callClosure_sameState n closure args m)).imp
    (fun _ _ h hf => ⟨h.1 hf, h.2⟩) fun _ _ h hf => ⟨h.1 hf, h.2⟩

theorem leads_callGlobal_uneventful (fuel : Nat) (name : NameId) (args : List Ref) :
    Leads Uneventful (callGlobal fuel name args : Action F Ref) :=
  Leads.bind (leads_get_bind fun _ => leads_field _ name) fun _ => leads_get_bind fun _ =>
    (leads_require _ _).bind fun _ => leads_callClosure_uneventful fuel _ _

end Calls

/-! ### A fault is reported -/

/-- From `m` to `m'` a fault has stopped the machine: it is recorded and was reported, once. -/
structure Stopped (e : Fault) (m m' : Machine F) : Prop where
  /-- The machine is in the error state. -/
  state : m'.state = .error
  /-- The fault is recorded. -/
  error : m'.error = some e
  /-- It was reported. -/
  reports : m'.reports = m.reports.push e
  /-- The machine knows the same functions. -/
  functions : m'.functions = m.functions

/-- What a request may do from `m` to `m'`, as far as faults are concerned. -/
inductive Reporting (m m' : Machine F) : Prop
  /-- No fault is reported, and the error state is neither entered nor left. -/
  | silent (unfaulted : Unfaulted m m') (stays : m.state = .error → m'.state = .error)
  /-- The error state is entered, and the fault that is recorded is reported, once. -/
  | stopped (e : Fault) (before : m.state ≠ .error) (after : Stopped e m m')

theorem Reporting.refl (m : Machine F) : Reporting m m := .silent (.refl m) id

theorem SameFaults.reporting (h : SameFaults m m') : Reporting m m' :=
  .silent h.toUnfaulted fun hs => h.sameState.trans hs

theorem Reporting.functions (h : Reporting m m') : m'.functions = m.functions := by
  cases h with
  | silent unfaulted => exact unfaulted.functions
  | stopped _ _ after => exact after.functions

/-- A fault is reported after work that has reported none. -/
theorem Stopped.reporting (after : Stopped e m₁ m') (unfaulted : Unfaulted m m₁)
    (hs : m.state ≠ .error) : Reporting m m' := by
  refine .stopped e hs ⟨after.state, after.error, ?_, ?_⟩
  · rw [after.reports, unfaulted.reports]
  · rw [after.functions, unfaulted.functions]

/-- Work that has reported no fault may come before. -/
theorem Reporting.after (h : Reporting m₁ m') (unfaulted : Unfaulted m m₁) (hs : m.state ≠ .error) :
    Reporting m m' := by
  cases h with
  | silent unfaulted' _ => exact .silent (unfaulted.trans unfaulted') fun h => absurd h hs
  | stopped e _ after => exact after.reporting unfaulted hs

theorem ends_setError (m : Machine F) (e : Fault) {E : Halt → Machine F → Prop} :
    Ends (setError e) m (fun _ m' => Stopped e m m' ∧ m'.pc = m.pc) E := by
  refine ends_bind (Q := fun _ m₁ => Stopped e m m₁ ∧ m₁.pc = m.pc)
    (ends_modify ⟨⟨rfl, rfl, rfl, rfl⟩, rfl⟩) fun _ m₁ h => ends_get_bind ?_
  split
  · exact ends_modify ⟨⟨h.1.state, h.1.error, h.1.reports, h.1.functions⟩, h.2⟩
  · exact ends_pure h

variable [HostFunctions F]

/-! ### Steps -/

theorem step_of_ne_ready (hs : m.state ≠ .ready) (fuel : Nat) : step fuel m = .ok () m := by
  rw [step, get_bind_apply, if_neg hs]
  rfl

/-- A step that stops the machine leaves the program counter on its instruction. -/
theorem ends_step (hf : m.functions = #[]) (fuel : Nat) : Ends (step fuel) m
    (fun _ m' => Reporting m m' ∧ (m'.state = .error → m'.pc = m.pc))
    fun halt m' => halt = .outOfFuel ∧ Reporting m m' := by
  have instruction : Leads Calm (do collectGarbage; execute (runHost (callClosure fuel)) :
      Action F Unit) :=
    leads_collectGarbage.bind fun _ => leads_execute
      (leads_runHost_calm (leads_callClosure_calm fuel))
      fun _ _ => ⟨rfl, rfl, (fun hs => nomatch hs), rfl⟩
  refine ends_get_bind ?_
  split
  · next hready =>
    have hrun : m.state ≠ .error := by simp [hready]
    have silent : ∀ {m' : Machine F}, Calm m m' → Reporting m m' := fun h =>
      .silent (h hf) fun hs => absurd hs hrun
    refine ends_bind ((ends_attempt (instruction m)).imp (fun _ _ => id)
      fun _ _ h => ⟨h.1, silent h.2⟩) fun result m₁ h => ?_
    rcases h with ⟨_, rfl, calm⟩ | ⟨e, rfl, calm⟩
    · exact ends_pure ⟨silent calm, fun hs => absurd ((calm hf).state hs) hrun⟩
    · refine ends_bind (ends_modify (Q := fun _ m₂ => m₂ = { m₁ with pc := m.pc }) rfl)
        fun _ m₂ h₂ => ?_
      subst h₂
      have unfaulted : Unfaulted m { m₁ with pc := m.pc } := (calm hf).trans ⟨rfl, rfl, id, rfl⟩
      exact (ends_setError _ e).imp (fun _ _ h => ⟨h.1.reporting unfaulted hrun, fun _ => h.2⟩)
        fun _ _ => id
  · exact ends_pure ⟨.refl m, fun _ => rfl⟩

/-- A machine that is not ready has nothing to run. -/
theorem ends_run_of_ne_ready (hs : m.state ≠ .ready) (n : Nat) : Ends (run n) m
    (fun _ m' => m' = m) fun halt m' => halt = .outOfFuel ∧ m' = m := by
  cases n with
  | zero => exact ends_throw ⟨rfl, rfl⟩
  | succ n =>
    rw [ends_iff, run]
    simp only [hs, if_false]

/-- The last step of a run may stop the machine. Those before it report no fault. -/
theorem ends_run (hf : m.functions = #[]) (n : Nat) : Ends (run n) m
    (fun _ m' => Reporting m m') fun halt m' => halt = .outOfFuel ∧ Reporting m m' := by
  induction n generalizing m with
  | zero => exact ends_throw ⟨rfl, .refl m⟩
  | succ n ih =>
    rw [ends_iff, run]
    by_cases hready : m.state = .ready
    · simp only [hready, if_true]
      cases hs : step n m with
      | error e m₁ => exact (ends_step hf n).of_error hs
      | ok _ m₁ =>
        have reporting := ((ends_step hf n).of_ok hs).1
        refine ends_iff.1 ?_
        cases reporting with
        | silent unfaulted _ =>
          have next : ∀ {m'}, Reporting m₁ m' → Reporting m m' := fun h =>
            h.after unfaulted (by simp [hready])
          exact (ih (unfaulted.functions.trans hf)).imp (fun _ _ => next)
            fun _ _ h => ⟨h.1, next h.2⟩
        | stopped e before after =>
          have stop : Reporting m m₁ := .stopped e before after
          exact (ends_run_of_ne_ready (by simp [after.state]) n).imp (fun _ _ h => h ▸ stop)
            fun _ _ h => ⟨h.1, h.2 ▸ stop⟩
    · simp only [hready, if_false]
      exact .refl m

/-! ### Messages and global functions -/

/-- Every message leaves faults alone, until one stops the machine. -/
theorem ends_drainInbox (hf : m.functions = #[]) (hs : m.state ≠ .error) (n : Nat) :
    Ends (drainInbox n) m (fun _ m' => Reporting m m')
      fun halt m' => halt = .outOfFuel ∧ Reporting m m' := by
  induction n generalizing m with
  | zero => exact ends_throw ⟨rfl, .refl m⟩
  | succ n ih =>
    refine ends_get_bind ?_
    obtain ⟨message?, inbox⟩ := m.inbox.pop
    cases message? with
    | none => exact ends_pure (.refl m)
    | some message =>
      refine ends_bind (ends_modify (Q := fun _ m₁ => m₁ = { m with inbox }) rfl) fun _ m₁ h₁ => ?_
      subst h₁
      have handle : Leads Uneventful (dispatch (callClosure n) message : Action F Unit) :=
        leads_dispatch (leads_callClosure_uneventful n) message
      have taken : ∀ {m₂ : Machine F}, Uneventful { m with inbox } m₂ → SameFaults m m₂ := fun h =>
        ⟨⟨(h hf).error, (h hf).reports, (h hf).state, (h hf).functions⟩, (h hf).sameState⟩
      refine ends_bind (Q := fun _ m₂ => SameFaults m m₂) ((ends_attempt (handle _)).imp ?_
        fun _ _ h => ⟨h.1, (taken h.2).reporting⟩) fun result m₂ h₂ => ?_
      · rintro _ m₂ (⟨_, _, h⟩ | ⟨_, _, h⟩)
        · exact taken h
        · exact taken h
      refine ends_bind (ends_release_sameControl m₂ message) fun _ m₃ h₃ => ?_
      have unfaulted : Unfaulted m m₃ := h₂.toUnfaulted.trans h₃.unfaulted
      cases result with
      | ok _ =>
        have next : ∀ {m'}, Reporting m₃ m' → Reporting m m' := fun h => h.after unfaulted hs
        refine (ih (unfaulted.functions.trans hf) ?_).imp (fun _ _ => next)
          fun _ _ h => ⟨h.1, next h.2⟩
        rwa [h₃.state, h₂.sameState]
      | error e =>
        exact (ends_setError m₃ e).imp (fun _ _ h => h.1.reporting unfaulted hs) fun _ _ => id

theorem ends_processInbox (hf : m.functions = #[]) (fuel : Nat) : Ends (processInbox fuel) m
    (fun _ m' => Reporting m m') fun halt m' => halt = .outOfFuel ∧ Reporting m m' := by
  refine ends_get_bind ?_
  cases hs : m.state with
  | ready | done => exact ends_drainInbox hf (by simp [hs]) fuel
  | noCode | error => exact ends_pure (.refl m)

/-- A global function that fails leaves the program counter where it was. -/
theorem ends_functionCall (hf : m.functions = #[]) (fuel : Nat) (name : NameId) (args : List Ref) :
    Ends (functionCall fuel name args) m (fun _ m' => Reporting m m')
      fun halt m' => Reporting m m' ∧ ∀ e, halt = .fault e → m'.pc = m.pc := by
  refine ends_get_bind ?_
  cases hs : m.state with
  | noCode | error => exact ends_throw ⟨.refl m, fun _ _ => rfl⟩
  | ready | done =>
    have hrun : m.state ≠ .error := by simp [hs]
    refine ends_bind ((ends_attempt (leads_callGlobal_uneventful fuel name args m)).imp
      (fun _ _ => id) fun _ _ h => ⟨(h.2 hf).reporting, fun e he => ?_⟩) fun result m₁ h => ?_
    · rw [h.1] at he
      cases he
    rcases h with ⟨r, rfl, same⟩ | ⟨e, rfl, same⟩
    · exact ends_pure (same hf).reporting
    · refine ends_bind (ends_modify (Q := fun _ m₂ => m₂ = { m₁ with pc := m.pc }) rfl)
        fun _ m₂ h₂ => ?_
      subst h₂
      have unfaulted : Unfaulted m { m₁ with pc := m.pc } :=
        (same hf).toUnfaulted.trans ⟨rfl, rfl, id, rfl⟩
      exact ends_bind (ends_setError _ e) fun _ m₃ h =>
        ends_throw ⟨h.1.reporting unfaulted hrun, fun _ _ => h.2⟩

/-! ### The program counter where messages are handled -/

instance patient_pc (pc : UInt16) : Patient (fun m : Machine F => m.pc = pc) where
  calm _ same h := same.pc.trans h
  store p v m _ h := (leads_storeVersion (R := SameControl) p v m).imp (fun _ _ h' => h'.pc.trans h)
    fun _ _ h' => h'.pc.trans h
  insert key v m _ h := (leads_insertVersion (R := SameControl) key v m).imp
    (fun _ _ h' => h'.pc.trans h) fun _ _ h' => h'.pc.trans h
  reset {m} _ h := (leads_resetStigmergy (R := SameControl) m).imp (fun _ _ h' => h'.pc.trans h)
    fun _ _ h' => h'.pc.trans h

/-- Messages are handled by host code, and every call from host code returns to where it began. -/
theorem upholds_drainInbox_pc (pc : UInt16) (n : Nat) :
    Upholds (fun m => m.pc = pc) (drainInbox n : Action F Unit) := by
  have keep : ∀ {x : Action F Unit}, Confined x → (∀ m, Ends x m (fun _ m' => m'.pc = m.pc)
      fun _ m' => m'.pc = m.pc) → Upholds (fun m => m.pc = pc) x := fun hx hpc =>
    hx.upholds fun {m} _ h => (hpc m).imp (fun _ _ h' => h'.trans h) fun _ _ h' => h'.trans h
  induction n with
  | zero => exact upholds_throw _
  | succ n ih =>
    refine upholds_get_bind fun m => ?_
    obtain ⟨message?, inbox⟩ := m.inbox.pop
    cases message? with
    | none => exact upholds_pure _
    | some message =>
      have call : ∀ closure args,
          Upholds (fun m => m.pc = pc) (callClosure n closure args : Action F Ref) :=
        fun closure args m hm h => (ends_callClosure n closure args hm).imp
          (fun _ _ h' => ⟨h'.toWithin, h'.pc.trans h⟩) fun _ _ h' => ⟨h'.toWithin, h'.pc.trans h⟩
      refine Upholds.bind (keep (confined_modify fun _ => rfl) fun _ => ends_modify rfl) fun _ =>
        (upholds_dispatch call message).attempt.bind fun result => ?_
      refine Upholds.bind (keep (confined_release message) fun m =>
        (ends_release_sameControl m message).imp (fun _ _ h => h.pc) fun _ _ => id) fun _ => ?_
      cases result with
      | ok _ => exact ih
      | error e =>
        exact keep (upholds_setError (I := fun _ => True) e).confined fun m =>
          (ends_setError m e).imp (fun _ _ h => h.2) fun _ _ => id

/-! ### The error state -/

/-- Nothing goes on in the error state. -/
theorem unchanged_of_error (hs : m.state = .error) (fuel : Nat) :
    step fuel m = .ok () m ∧ run (fuel + 1) m = .ok () m ∧ processInbox fuel m = .ok () m
      ∧ ∀ name args, ∃ e, functionCall fuel name args m = .error (.fault e) m := by
  have hready : m.state ≠ .ready := by simp [hs]
  refine ⟨step_of_ne_ready hready fuel, ?_, ?_, fun name args => ⟨m.error.getD .instruction, ?_⟩⟩
  · rw [run]
    simp only [hready, if_false]
  · rw [processInbox, get_bind_apply, hs]
    rfl
  · rw [functionCall, get_bind_apply, hs]
    rfl

/-! ### One funnel -/

/-- What a request does from `m` to `m'`, in terms of the faults that are reported. -/
structure Funnel (m m' : Machine F) : Prop where
  /-- One fault is reported at most, and it is the one that is recorded then. -/
  once : m'.reports = m.reports ∨ ∃ e, m'.reports = m.reports.push e ∧ m'.error = some e
  /-- A fault is reported if and only if the error state is entered. -/
  entered : m'.reports ≠ m.reports ↔ m.state ≠ .error ∧ m'.state = .error

omit [HostFunctions F] in
theorem Reporting.funnel (h : Reporting m m') : Funnel m m' := by
  cases h with
  | silent unfaulted =>
    refine ⟨.inl unfaulted.reports, fun hr => absurd unfaulted.reports hr, fun hs => ?_⟩
    exact absurd (unfaulted.state hs.2) hs.1
  | stopped e before after =>
    refine ⟨.inr ⟨e, after.reports, after.error⟩, fun _ => ⟨before, after.state⟩, fun _ => ?_⟩
    rw [after.reports]
    exact fun h => by simpa using congrArg Array.size h

/-- **Faults go through one funnel.** Whatever is called, and however deep a fault comes up: a
request reports one fault at most, and exactly when it enters the error state. A step that fails
stays on its instruction, messages and global functions that fail leave the program counter alone,
and in the error state nothing goes on. -/
theorem Reached.faults_reported_once (hm : Reached m) (fuel : Nat) :
    Ends (step fuel) m (fun _ m' => Funnel m m' ∧ (m'.state = .error → m'.pc = m.pc))
        (fun halt m' => halt = .outOfFuel ∧ Funnel m m')
      ∧ Ends (run fuel) m (fun _ m' => Funnel m m')
        (fun halt m' => halt = .outOfFuel ∧ Funnel m m')
      ∧ Ends (processInbox fuel) m (fun _ m' => Funnel m m' ∧ m'.pc = m.pc)
        (fun halt m' => halt = .outOfFuel ∧ Funnel m m')
      ∧ (∀ name args, Ends (functionCall fuel name args) m (fun _ m' => Funnel m m')
        fun halt m' => Funnel m m' ∧ ∀ e, halt = .fault e → m'.pc = m.pc)
      ∧ (m.state = .error → step fuel m = .ok () m ∧ run (fuel + 1) m = .ok () m
        ∧ processInbox fuel m = .ok () m
        ∧ ∀ name args, ∃ e, functionCall fuel name args m = .error (.fault e) m) := by
  have standard := hm.orderly.standard
  have hf : m.functions = #[] := standard.functions
  have inbox : Upholds (fun m' => m'.pc = m.pc) (processInbox fuel : Action F Unit) := by
    refine upholds_get_bind fun m₁ => ?_
    cases m₁.state with
    | ready | done => exact upholds_drainInbox_pc m.pc fuel
    | noCode | error => exact upholds_pure _
  refine ⟨?_, ?_, ?_, fun name args => ?_, fun hs => unchanged_of_error hs fuel⟩
  · exact (ends_step hf fuel).imp (fun _ _ h => ⟨h.1.funnel, h.2⟩) fun _ _ h => ⟨h.1, h.2.funnel⟩
  · exact (ends_run hf fuel).imp (fun _ _ => Reporting.funnel) fun _ _ h => ⟨h.1, h.2.funnel⟩
  · exact ((ends_processInbox hf fuel).and (inbox m standard rfl)).imp
      (fun _ _ h => ⟨h.1.funnel, h.2.2⟩) fun _ _ h => ⟨h.1.1, h.1.2.funnel⟩
  · exact (ends_functionCall hf fuel name args).imp (fun _ _ => Reporting.funnel)
      fun _ _ h => ⟨h.1.funnel, h.2⟩

/-- The fault that an action ends with, if there is one. -/
def fault? (x : Action F α) (m : Machine F) : Option Fault :=
  match x m with
  | .error (.fault e) _ => some e
  | _ => none

omit [HostFunctions F] in
theorem eq_error_of_fault? {x : Action F α} (hx : fault? x m = some e) :
    x m = .error (.fault e) (stateAfter x m) := by
  rw [fault?] at hx
  rw [stateAfter]
  split at hx
  · next hs =>
    cases hx
    rw [hs]
  · cases hx

/-- A machine with room for the record of one image. -/
def crowded : Machine Empty :=
  blank { heapSize := 128 } 0 1 2 3 (Heap.after coreObjects (Heap.make 128))

theorem coreObjects_crowded : coreObjects (Heap.make 128)
    = .ok (0, 1, 2, 3) (.laidOut coreValues 42 coreSegments) :=
  coreObjects_laidOut (by decide +kernel)

theorem crowded_eq :
    crowded = blank { heapSize := 128 } 0 1 2 3 (.laidOut coreValues 42 coreSegments) := by
  rw [crowded, Heap.after, coreObjects_crowded]

theorem new_crowded : crowded.New := by
  have hl := (ends_coreObjects (by decide)).of_ok coreObjects_crowded
  rw [crowded_eq]
  exact new_blank (by decide) hl.wellFormed hl.tidy 0 1 2 3

/-- An image without strings, whose script begins with the end of its prologue. -/
def shortImage : List UInt8 := [0, 0, Opcode.nop.byte]

/-- The machine with that image, -/
def occupied : Machine Empty := stateAfter (Request.perform 1 (.load shortImage)) crowded

/-- and after the call of a function that it does not have. -/
def halted : Machine Empty := stateAfter (functionCall 1 34 []) occupied

theorem crowded_evaluates :
    answers (Request.perform 1 (.load shortImage)) crowded = true
      ∧ fault? (functionCall 1 34 []) occupied = some .type
      ∧ halted.state = .error ∧ halted.reports.toList = [.type]
      ∧ answers (Heap.arrayClone halted.defaultRecord) halted.heap = false := by
  rw [halted, occupied, crowded_eq]
  decide +kernel

theorem perform_load_crowded : Request.perform 1 (.load shortImage) crowded = .ok () occupied :=
  eq_ok_of_answers crowded_evaluates.1

theorem functionCall_occupied : functionCall 1 34 [] occupied = .error (.fault .type) halted :=
  eq_error_of_fault? crowded_evaluates.2.1

/-- The call is reported once, and stops the machine where it was. -/
theorem reported_by_halted : Reached occupied
    ∧ functionCall 1 34 [] occupied = .error (.fault .type) halted ∧ Funnel occupied halted
    ∧ halted.reports.toList = [.type] ∧ halted.state = .error ∧ halted.pc = occupied.pc := by
  have start : Reached crowded := .start new_crowded
  have reached : Reached occupied := start.answered 1 _ perform_load_crowded
  obtain ⟨-, -, state, reports, -⟩ := crowded_evaluates
  obtain ⟨-, -, -, call, -⟩ := reached.faults_reported_once 1
  obtain ⟨funnel, pc⟩ := (call 34 []).of_error functionCall_occupied
  exact ⟨reached, functionCall_occupied, funnel, reports, state, pc _ rfl⟩

end Machine

end SwarmVm
