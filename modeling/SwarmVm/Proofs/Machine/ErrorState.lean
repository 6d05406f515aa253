import SwarmVm.Proofs.Machine.Faults

/-!
# The error state and the recorded fault

That a machine is in the error state and which fault has stopped it are registers of their own. They
are set together when a fault is reported, and cleared together when host code leaves the error
state, so that they agree. Attaching an image sets them at different times: it clears the fault
first, and makes a record for the locals before it leaves the error state. When there is no room for
the record, the machine is left in the error state without a fault.

No condition is put on the machine but that it knows no functions other than the standard ones. The
depth of the stack, for one, does not matter.

## Main definitions

* `Machine.Serves` — what a request does to the error state and the recorded fault
* `Machine.Consistent` — the error state and the recorded fault agree
* `Machine.Request.Spoils` — an image is attached in the error state, without room for a record
* `Machine.Arising` — the machines that host code can reach with some requests

## Main results

* `Machine.Request.ends_serves` — requests
* `Machine.consistent_unless_spoilt` — the error state and the recorded fault agree, unless there
  was no room for a record
-/

namespace SwarmVm

namespace Machine

variable {F α : Type} {m m' : Machine F}

/-! ### What a request does -/

/-- There is no room for the record that an image needs. -/
def Request.Unroomed (q : Request) (m : Machine F) : Prop :=
  ∃ bytes image, q = .load bytes ∧ Image.parse bytes = .ok image
    ∧ answers (Heap.arrayClone m.defaultRecord) m.heap = false

/-- What a request does to the error state and the recorded fault. -/
inductive Serves (q : Request) (m m' : Machine F) : Prop
  /-- It reports a fault, or none. -/
  | reporting (h : Reporting m m')
  /-- It starts over, without a fault. -/
  | restarted {m₁ : Machine F} (state : m₁.state ≠ .error) (error : m₁.error = none)
    (functions : m₁.functions = m.functions) (h : Reporting m₁ m')
  /-- It clears the fault, and stays in the state. -/
  | unroomed (hq : q.Unroomed m) (state : m'.state = m.state) (error : m'.error = none)
    (functions : m'.functions = m.functions)

theorem Serves.functions {q : Request} (h : Serves q m m') : m'.functions = m.functions := by
  cases h with
  | reporting h => exact h.functions
  | restarted _ _ functions h => exact h.functions.trans functions
  | unroomed _ _ _ functions => exact functions

/-! ### Agreement -/

/-- If a fault is recorded, the machine is in the error state. -/
theorem Serves.state_of_error {q : Request} (h : Serves q m m')
    (hm : m.error.isSome = true → m.state = .error) :
    m'.error.isSome = true → m'.state = .error := by
  have reporting : ∀ {m : Machine F}, Reporting m m' → (m.error.isSome = true → m.state = .error) →
      m'.error.isSome = true → m'.state = .error := by
    intro m h hm herror
    cases h with
    | silent unfaulted stays => exact stays (hm (unfaulted.error ▸ herror))
    | stopped _ _ after => exact after.state
  cases h with
  | reporting h => exact reporting h hm
  | restarted _ error _ h => exact reporting h (by simp [error])
  | unroomed _ _ error => simp [error]

/-- The machine is in the error state if and only if a fault is recorded. -/
def Consistent (m : Machine F) : Prop := m.state = .error ↔ m.error.isSome = true

theorem Reporting.consistent (h : Reporting m m') (hm : m.Consistent) : m'.Consistent := by
  cases h with
  | silent unfaulted stays =>
    rw [Consistent, unfaulted.error]
    exact ⟨fun hs => hm.1 (unfaulted.state hs), fun he => stays (hm.2 he)⟩
  | stopped _ _ after => simp [Consistent, after.state, after.error]

/-- An image is attached in the error state, and there is no room for its record. -/
def Request.Spoils (q : Request) (m : Machine F) : Prop := m.state = .error ∧ q.Unroomed m

theorem Serves.consistent {q : Request} (h : Serves q m m') (hq : ¬ q.Spoils m)
    (hm : m.Consistent) : m'.Consistent := by
  cases h with
  | reporting h => exact h.consistent hm
  | restarted state error _ h => exact h.consistent (by simp [Consistent, state, error])
  | unroomed room state error =>
    have hs : m.state ≠ .error := fun hs => hq ⟨hs, room⟩
    simp [Consistent, state, error, hs]

/-! ### Attaching an image -/

/-- A copy is made of an array exactly if there is room for it on the heap. -/
theorem ends_attempt_arrayClone (a : Ref) {E : Halt → Machine F → Prop} :
    Ends (attempt (arrayClone a)) m (fun result m' => SameControl m m'
      ∧ ((∃ e, result = .error e) ↔ answers (Heap.arrayClone a) m.heap = false)) E := by
  have run : (arrayClone a : Action F Ref) m = onHeap (Heap.arrayClone a)
      { m with strayed := m.strayed || !m.heap.isIntact a } := rfl
  rw [ends_iff, attempt, run, onHeap, answers]
  simp only [detachHeap]
  cases Heap.arrayClone a m.heap with
  | ok r h => exact ⟨⟨rfl, rfl, rfl, rfl, rfl, rfl⟩, by simp⟩
  | error e h => exact ⟨⟨rfl, rfl, rfl, rfl, rfl, rfl⟩, by simp⟩

/-- Up to the record for its locals, an image is attached in the state of before, and the fault is
cleared. -/
theorem ends_attach_record (image : Image) {f : Except Fault Ref → Action F α}
    {Q : α → Machine F → Prop} {E : Halt → Machine F → Prop}
    (hf : ∀ result m₁, m₁.state = m.state → m₁.error = none → m₁.functions = m.functions →
      ((∃ e, result = .error e) ↔ answers (Heap.arrayClone m.defaultRecord) m.heap = false) →
      Ends (f result) m₁ Q E) :
    Ends (do
      attach image
      let record ← attempt (arrayClone (← get).defaultRecord)
      f record) m Q E := by
  refine ends_bind (Q := fun _ m₁ => (m₁.state = m.state ∧ m₁.error = none
    ∧ m₁.functions = m.functions) ∧ m₁.heap = m.heap ∧ m₁.defaultRecord = m.defaultRecord)
    (ends_iff.2 ⟨⟨rfl, rfl, rfl⟩, rfl, rfl⟩) fun _ m₁ h₁ => ends_get_bind ?_
  obtain ⟨⟨state, error, functions⟩, heap, record⟩ := h₁
  refine ends_bind (ends_attempt_arrayClone _) fun result m₂ h₂ => ?_
  obtain ⟨same, room⟩ := h₂
  rw [heap, record] at room
  exact hf result m₂ (same.state.trans state) (same.error.trans error)
    (same.functions.trans functions) room

variable [HostFunctions F]

/-- The last step of a prologue may stop the machine. -/
theorem ends_prologue (hf : m.functions = #[]) (hs : m.state ≠ .error) (n : Nat) :
    Ends (prologue n) m (fun _ m' => Reporting m m') fun _ m' => Reporting m m' := by
  induction n generalizing m with
  | zero => exact ends_throw (.refl m)
  | succ n ih =>
    refine ends_get_bind ?_
    split
    · have skip : Reporting m { m with pc := m.pc + 1 } := .silent ⟨rfl, rfl, id, rfl⟩ id
      exact ends_bind (ends_modify (Q := fun _ m₁ => Reporting m m₁) skip)
        fun _ _ h => ends_pure h
    · refine ends_bind ((ends_step hf n).imp (fun _ _ h => h.1) fun _ _ h => h.2)
        fun _ m₁ h₁ => ends_get_bind ?_
      have next : m₁.state ≠ .error → Ends (prologue n) m₁ (fun _ m' => Reporting m m')
          fun _ m' => Reporting m m' := by
        intro hs₁
        cases h₁ with
        | silent unfaulted =>
          exact (ih (unfaulted.functions.trans hf) hs₁).imp (fun _ _ h => h.after unfaulted hs)
            fun _ _ h => h.after unfaulted hs
        | stopped _ _ after => exact absurd after.state hs₁
      cases hs₁ : m₁.state with
      | error | done => exact ends_pure h₁
      | ready | noCode => exact next (by simp [hs₁])

theorem ends_load (hf : m.functions = #[]) (fuel : Nat) (bytes : List UInt8) :
    Ends (load fuel bytes) m (fun _ m' => Serves (.load bytes) m m')
      fun _ m' => Serves (.load bytes) m m' := by
  rw [load]
  cases hp : Image.parse bytes with
  | error e => exact ends_pure (.reporting (.refl m))
  | ok image =>
    refine ends_attach_record image fun result m₁ state₁ error₁ functions₁ room => ?_
    cases result with
    | error e =>
      exact ends_pure (.unroomed ⟨bytes, image, rfl, hp, room.1 ⟨e, rfl⟩⟩ state₁ error₁ functions₁)
    | ok record =>
      refine ends_bind (ends_modify (Q := fun _ m₂ => m₂ = { m₁ with
        locals := record, state := .ready }) rfl) fun _ m₂ h₂ => ?_
      have state₂ : m₂.state ≠ .error := by simp [h₂]
      have functions₂ : m₂.functions = m.functions := by rw [h₂, ← functions₁]
      have restarted : ∀ {m'}, Reporting m₂ m' → Serves (.load bytes) m m' :=
        .restarted state₂ (by rw [h₂, ← error₁]) functions₂
      refine ends_bind ((ends_prologue (functions₂.trans hf) state₂ fuel).imp
        (fun _ _ => restarted) fun _ _ => restarted) fun fault m₃ h₃ => ?_
      cases fault with
      | some e => exact ends_pure h₃
      | none => exact ends_pure h₃

/-- Without room for the record, the machine is left in the error state without a fault. -/
theorem Request.Spoils.perform {q : Request} (hq : q.Spoils m) (fuel : Nat) :
    ∃ m', q.perform fuel m = .ok () m' ∧ m'.state = .error ∧ m'.error = none := by
  obtain ⟨hs, bytes, image, rfl, hp, hroom⟩ := hq
  have load : Ends (Machine.load fuel bytes) m (fun _ m' => m'.state = .error ∧ m'.error = none)
      fun _ _ => False := by
    rw [Machine.load, hp]
    refine ends_attach_record image fun result m₁ state₁ error₁ _ room => ?_
    obtain ⟨e, rfl⟩ := room.2 hroom
    exact ends_pure ⟨state₁.trans hs, error₁⟩
  have perform : Ends (Request.perform fuel (.load bytes)) m
      (fun _ m' => m'.state = .error ∧ m'.error = none) fun _ _ => False :=
    ends_bind load fun _ _ h => ends_pure h
  cases hx : (Request.load bytes).perform fuel m with
  | ok _ m' => exact ⟨m', rfl, perform.of_ok hx⟩
  | error e m' => exact (perform.of_error hx).elim

/-! ### Requests -/

theorem Request.ends_serves (hf : m.functions = #[]) (fuel : Nat) (q : Request) :
    Ends (q.perform fuel) m (fun _ m' => Serves q m m') fun _ m' => Serves q m m' := by
  cases q with
  | load bytes => exact ends_bind (ends_load hf fuel bytes) fun _ _ h => ends_pure h
  | step => exact (ends_step hf fuel).imp (fun _ _ h => .reporting h.1) fun _ _ h => .reporting h.2
  | run => exact (ends_run hf fuel).imp (fun _ _ => .reporting) fun _ _ h => .reporting h.2
  | functionCall name args =>
    exact ends_bind ((ends_functionCall hf fuel name args).imp (fun _ _ => id)
      fun _ _ h => .reporting h.1) fun _ _ h => ends_pure (.reporting h)
  | receive payload =>
    exact (leads_receive (R := Uneventful) payload m).imp
      (fun _ _ h => .reporting (h hf).reporting) fun _ _ h => .reporting (h hf).reporting
  | processInbox =>
    exact (ends_processInbox hf fuel).imp (fun _ _ => .reporting) fun _ _ h => .reporting h.2
  | clearError =>
    refine ends_modify ?_
    split
    · exact .restarted (by simp) (by simp) (by simp) (.refl { m with state := .ready, error := none })
    · exact .reporting (.refl m)
  | _ =>
    exact (Request.leads_of_isQuiet (leads_callClosure_uneventful fuel) rfl m).imp
      (fun _ _ h => .reporting (h hf).reporting) fun _ _ h => .reporting (h hf).reporting

/-! ### Machines that can be reached -/

/-- No image was ever attached, and no function registered. -/
structure Unused (m : Machine F) : Prop where
  /-- There is no script. -/
  state : m.state = .noCode
  /-- There is no fault. -/
  error : m.error = none
  /-- There are no functions but the standard ones. -/
  functions : m.functions = #[]

omit [HostFunctions F] in
/-- The machines that are made are unused. -/
theorem unused_make {s : Settings} (hm : make s = .ok m) : m.Unused := by
  obtain ⟨nil, record, globals, listeners, heap, -, -, hx⟩ := exists_bindGlobals_of_make hm
  have setGlobal : ∀ name r, Leads SameControl (setGlobal name r : Action F Unit) := fun _ _ =>
    leads_get_bind fun _ => leads_setField _ _ _
  have bound : Leads SameControl (bindGlobals : Action F Unit) :=
    leads_get_bind fun _ => (leads_alloc _).bind fun _ => (setGlobal _ _).bind fun _ =>
      (leads_alloc _).bind fun _ => (setGlobal _ _).bind fun _ => (leads_methodTable _).bind
        fun _ => (setGlobal _ _).bind fun _ => (leads_methodTable _).bind fun _ =>
          (setGlobal _ _).bind fun _ => (leads_methodTable _).bind fun _ => setGlobal _ _
  have same := (bound _).of_ok hx
  exact ⟨same.state, same.error, same.functions⟩

/-- The machines that host code can reach with requests that are allowed. A request may answer or
fault; what runs out of fuel is not over. -/
inductive Arising (allowed : Machine F → Request → Prop) : Machine F → Prop
  /-- A machine at the start. -/
  | start {m : Machine F} (hm : m.Unused) : Arising allowed m
  /-- A request that answers. -/
  | answered {m m' : Machine F} (before : Arising allowed m) (fuel : Nat) (q : Request)
    (hq : allowed m q) (hs : q.perform fuel m = .ok () m') : Arising allowed m'
  /-- A request that faults. -/
  | faulted {m m' : Machine F} (before : Arising allowed m) (fuel : Nat) (q : Request) (e : Fault)
    (hq : allowed m q) (hs : q.perform fuel m = .error (.fault e) m') : Arising allowed m'

theorem Arising.mono {allowed allowed' : Machine F → Request → Prop}
    (h : ∀ {m q}, allowed m q → allowed' m q) (hm : Arising allowed m) : Arising allowed' m := by
  induction hm with
  | start hm => exact .start hm
  | answered _ fuel q hq hs ih => exact ih.answered fuel q (h hq) hs
  | faulted _ fuel q e hq hs ih => exact ih.faulted fuel q e (h hq) hs

/-- What no request ends is true of the machines that can be reached. -/
theorem Arising.holds {allowed : Machine F → Request → Prop} {I : Machine F → Prop}
    (hstart : ∀ {m}, m.Unused → I m)
    (hserves : ∀ {q m m'}, allowed m q → Serves q m m' → I m → I m') (hm : Arising allowed m) :
    m.functions = #[] ∧ I m := by
  induction hm with
  | start hm => exact ⟨hm.functions, hstart hm⟩
  | answered _ fuel q hq hs ih =>
    have serves := (q.ends_serves ih.1 fuel).of_ok hs
    exact ⟨serves.functions.trans ih.1, hserves hq serves ih.2⟩
  | faulted _ fuel q e hq hs ih =>
    have serves := (q.ends_serves ih.1 fuel).of_error hs
    exact ⟨serves.functions.trans ih.1, hserves hq serves ih.2⟩

/-- **The error state and the recorded fault agree, unless there was no room for a record.** A fault
that is recorded has stopped the machine. The other way round, a machine in the error state has
recorded a fault as long as no image was attached there without room for its record, and exactly
such a request leaves the error state without a fault. -/
theorem consistent_unless_spoilt (m : Machine F) :
    (Arising (fun _ _ => True) m → m.error.isSome = true → m.state = .error)
      ∧ (Arising (fun m q => ¬ q.Spoils m) m → m.Consistent)
      ∧ ∀ fuel q, Request.Spoils q m →
        ∃ m', q.perform fuel m = .ok () m' ∧ m'.state = .error ∧ m'.error = none := by
  refine ⟨fun hm => ?_, fun hm => ?_, fun fuel q hq => hq.perform fuel⟩
  · exact (hm.holds (fun hm => by simp [hm.error]) fun _ h => h.state_of_error).2
  · exact (hm.holds (fun hm => by simp [Consistent, hm.state, hm.error])
      fun hq h => h.consistent hq).2

/-- The machine that is stopped for the missing function has no room for another image. -/
theorem spoils_halted :
    Arising (fun m q => ¬ q.Spoils m) halted ∧ (Request.load shortImage).Spoils halted := by
  obtain ⟨-, -, state, -, room⟩ := crowded_evaluates
  have start : Arising (fun m q => ¬ Request.Spoils q m) crowded := .start ⟨rfl, rfl, rfl⟩
  have loaded : Arising (fun m q => ¬ Request.Spoils q m) occupied :=
    start.answered 1 _ (fun h => by cases h.1) perform_load_crowded
  refine ⟨loaded.faulted 1 (.functionCall 34 []) .type ?_ ?_, state, shortImage, _, rfl, rfl, room⟩
  · rintro ⟨-, _, _, hq, -⟩
    cases hq
  · have hbind : Request.perform 1 (.functionCall 34 []) occupied
        = EStateM.bind (functionCall 1 34 []) (fun _ => pure ()) occupied := rfl
    rw [hbind, EStateM.bind, functionCall_occupied]

/-- Before the next image is attached, the machine is consistent. -/
theorem consistent_halted : ∃ m' : Machine Empty, Arising (fun m q => ¬ q.Spoils m) halted
    ∧ halted.Consistent ∧ (Request.load shortImage).Spoils halted
    ∧ Request.perform 1 (.load shortImage) halted = .ok () m' ∧ m'.state = .error
    ∧ m'.error = none := by
  obtain ⟨arising, spoils⟩ := spoils_halted
  obtain ⟨-, consistent, spoilt⟩ := consistent_unless_spoilt halted
  obtain ⟨m', hm'⟩ := spoilt 1 _ spoils
  exact ⟨m', arising, consistent arising, spoils, hm'⟩

/-- **Afterwards it is not:** it is in the error state, and there is no fault. -/
theorem error_without_fault :
    ¬ ∀ m : Machine Empty, Arising (fun _ _ => True) m → m.Consistent := by
  intro h
  obtain ⟨arising, spoils⟩ := spoils_halted
  obtain ⟨m', hs, state, error⟩ := spoils.perform 1
  have consistent := h m' ((arising.mono fun _ => trivial).answered 1 _ trivial hs)
  rw [Consistent, error] at consistent
  exact absurd (consistent.1 state) (by simp)

end Machine

end SwarmVm
