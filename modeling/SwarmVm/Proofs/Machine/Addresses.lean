import SwarmVm.Proofs.Image.Grammar
import SwarmVm.Proofs.Machine.Closed
import SwarmVm.Proofs.Machine.ErrorState
import SwarmVm.Proofs.Machine.FailedCalls

/-!
# Addresses of the code

The program counter is a word, and it moves past an instruction by an addition of words. An
instruction is only fetched if all its bytes are in the code. So the sum does not wrap around as
long as every offset of the code, its end included, is a word, that is, for less than 65536 bytes of
code. Nothing that a machine does changes its code except attaching an image, and images may be
longer: then a script can execute the instruction at the last address there is, and goes on at
address zero.

## Main definitions

* `Machine.SameCode` — the code is the same
* `Machine.Addressed` — the machines that host code can reach with images whose code is addressed by
  words, at any point of a request

## Main results

* `Machine.leads_callClosure_sameCode` — no call changes the code
* `Machine.Request.ends_recodes` — the code after a request
* `Machine.Addressed.never_wraps` — the program counter moves past every instruction
* `Machine.wraps_around` — it does not if the code is longer
-/

namespace SwarmVm

namespace Machine

variable {F α : Type} {m m' : Machine F}

/-! ### The code stays -/

/-- With the standard functions only, the code is the same. -/
def SameCode (m m' : Machine F) : Prop := m.functions = #[] → m'.functions = #[] ∧ m'.code = m.code

instance roaming_sameCode : Roaming (SameCode (F := F)) where
  same h hf := ⟨h.functions.trans hf, h.code⟩
  trans h h' hf := ⟨(h' (h hf).1).1, (h' (h hf).1).2.trans (h hf).2⟩
  jump _ _ hf := ⟨hf, rfl⟩

theorem leads_setError_sameCode (e : Fault) : Leads SameCode (setError e : Action F Unit) := by
  intro m
  refine ends_bind (ends_modify (Q := fun _ m₁ => SameCode m m₁) fun hf => ⟨hf, rfl⟩)
    fun _ m₁ h => ends_get_bind ?_
  split
  · exact ends_modify h
  · exact ends_pure h

section Running

variable [HostFunctions F]

theorem leads_runHost_sameCode {call : Caller F}
    (hcall : ∀ closure args, Leads SameCode (call closure args)) (id : UInt16) :
    Leads SameCode (runHost call id) := by
  rw [runHost]
  cases Primitive.ofId? id with
  | some p => exact leads_runPrimitive hcall p
  | none =>
    intro m
    refine ends_get_bind ?_
    by_cases hf : m.functions = #[]
    · rw [hf]
      exact ends_throw (Lenient.refl m)
    · exact ⟨fun _ h => absurd h hf, fun _ h => absurd h hf⟩

/-- No call changes the code. -/
theorem leads_callClosure_sameCode (n : Nat) : ∀ closure args,
    Leads SameCode (callClosure n closure args : Action F Ref) := by
  induction n with
  | zero => exact fun _ _ => leads_throw _
  | succ n ih =>
    intro closure args m
    have hhost := leads_runHost_sameCode ih
    have body : Leads SameCode (do
        let depth := (← get).frameDepth
        pushOperands closure args
        call (runHost (callClosure n))
        runFrames (callClosure n) depth n
        pop : Action F Ref) :=
      leads_get_bind fun _ => (leads_pushOperands closure args).bind fun _ =>
        (leads_call hhost).bind fun _ => (leads_runFrames hhost (fun _ hf => ⟨hf, rfl⟩) _ n).bind
          fun _ => leads_pop
    rw [ends_iff, callClosure, guarded]
    split
    · next hs =>
      split at hs
      · next hx =>
        cases hs
        have h := (body _).of_ok hx
        exact h
      · cases hs
    · next hs =>
      split at hs
      · cases hs
      · next hx =>
        cases hs
        have h := (body _).of_error hx
        exact h

theorem leads_step_sameCode (fuel : Nat) : Leads SameCode (step fuel : Action F Unit) := by
  have instruction : Leads SameCode (do collectGarbage; execute (runHost (callClosure fuel)) :
      Action F Unit) :=
    leads_collectGarbage.bind fun _ => leads_execute
      (leads_runHost_sameCode (leads_callClosure_sameCode fuel)) fun _ hf => ⟨hf, rfl⟩
  refine leads_get_bind fun entry => ?_
  split
  · refine instruction.attempt.bind fun result => ?_
    cases result with
    | ok _ => exact leads_pure _
    | error e => exact (leads_jump _).bind fun _ => leads_setError_sameCode e
  · exact leads_pure _

theorem leads_run_sameCode (n : Nat) : Leads SameCode (run n : Action F Unit) := by
  induction n with
  | zero => exact leads_throw _
  | succ n ih =>
    intro m
    rw [ends_iff, run]
    by_cases hready : m.state = .ready
    · simp only [hready, if_true]
      cases hs : step n m with
      | error e m₁ => exact (leads_step_sameCode n m).of_error hs
      | ok _ m₁ =>
        have h₁ := (leads_step_sameCode n m).of_ok hs
        exact ends_iff.1 ((ih m₁).imp (fun _ _ => Lenient.trans h₁) fun _ _ => Lenient.trans h₁)
    · simp only [hready, if_false]
      exact Lenient.refl m

theorem leads_prologue_sameCode (n : Nat) :
    Leads SameCode (prologue n : Action F (Option Fault)) := by
  induction n with
  | zero => exact leads_throw _
  | succ n ih =>
    refine leads_get_bind fun m => ?_
    split
    · exact (leads_jump _).bind fun _ => leads_pure _
    · refine (leads_step_sameCode n).bind fun _ => leads_get_bind fun m₁ => ?_
      cases m₁.state with
      | error | done => exact leads_pure _
      | ready | noCode => exact ih

theorem leads_functionCall_sameCode (fuel : Nat) (name : NameId) (args : List Ref) :
    Leads SameCode (functionCall fuel name args : Action F Ref) := by
  have callGlobal : Leads SameCode (callGlobal fuel name args : Action F Ref) :=
    Leads.bind (leads_get_bind fun _ => leads_field _ name) fun _ => leads_get_bind fun _ =>
      (leads_require _ _).bind fun _ => leads_callClosure_sameCode fuel _ _
  refine leads_get_bind fun entry => ?_
  cases entry.state with
  | error | noCode => exact leads_throw _
  | ready | done =>
    refine callGlobal.attempt.bind fun result => ?_
    cases result with
    | ok r => exact leads_pure r
    | error e =>
      exact (leads_jump _).bind fun _ => (leads_setError_sameCode e).bind fun _ => leads_throw _

theorem leads_drainInbox_sameCode (n : Nat) : Leads SameCode (drainInbox n : Action F Unit) := by
  induction n with
  | zero => exact leads_throw _
  | succ n ih =>
    refine leads_get_bind fun m => ?_
    obtain ⟨message?, inbox⟩ := m.inbox.pop
    cases message? with
    | none => exact leads_pure _
    | some message =>
      refine Leads.bind (leads_modify fun _ => rfl) fun _ =>
        (leads_dispatch (leads_callClosure_sameCode n) message).attempt.bind fun result =>
          (leads_release message).bind fun _ => ?_
      cases result with
      | ok _ => exact ih
      | error e => exact leads_setError_sameCode e

theorem leads_processInbox_sameCode (fuel : Nat) :
    Leads SameCode (processInbox fuel : Action F Unit) := by
  refine leads_get_bind fun m => ?_
  cases m.state with
  | ready | done => exact leads_drainInbox_sameCode fuel
  | noCode | error => exact leads_pure _

/-! ### The code after a request -/

/-- A request leaves the machine with the code it had, or with that of an image that it attaches. -/
def Request.Recodes (q : Request) (m m' : Machine F) : Prop :=
  m'.functions = #[] ∧ (m'.code = m.code ∨ ∃ bytes image, q = .load bytes
    ∧ Image.parse bytes = .ok image ∧ m'.code = image.code)

omit [HostFunctions F] in
theorem Leads.recodes {x : Action F α} (hx : Leads SameCode x) (hf : m.functions = #[])
    (q : Request) : Ends x m (fun _ m' => q.Recodes m m') fun _ m' => q.Recodes m m' :=
  (hx m).imp (fun _ _ h => ⟨(h hf).1, .inl (h hf).2⟩) fun _ _ h => ⟨(h hf).1, .inl (h hf).2⟩

/-- Behind the attaching of its image, `load` leaves the code alone. -/
theorem ends_load_recodes (hf : m.functions = #[]) (fuel : Nat) (bytes : List UInt8) :
    Ends (load fuel bytes) m (fun _ m' => (Request.load bytes).Recodes m m')
      fun _ m' => (Request.load bytes).Recodes m m' := by
  rw [load]
  cases hp : Image.parse bytes with
  | error e => exact ends_pure ⟨hf, .inl rfl⟩
  | ok image =>
    refine ends_bind (Q := fun _ m₁ => m₁.functions = #[] ∧ m₁.code = image.code)
      (ends_iff.2 ⟨hf, rfl⟩) fun _ m₁ h₁ => ?_
    have later : ∀ {m'}, SameCode m₁ m' → (Request.load bytes).Recodes m m' := fun h =>
      ⟨(h h₁.1).1, .inr ⟨bytes, image, rfl, hp, (h h₁.1).2.trans h₁.2⟩⟩
    refine Ends.imp (Q := fun _ => SameCode m₁) (E := fun _ => SameCode m₁) ?_ (fun _ _ => later)
      fun _ _ => later
    refine leads_get_bind (fun m₂ => (leads_arrayClone _).attempt.bind fun result => ?_) m₁
    cases result with
    | error e => exact leads_pure _
    | ok record =>
      refine Leads.bind (fun m => ends_modify fun hf => ⟨hf, rfl⟩) fun _ =>
        (leads_prologue_sameCode fuel).bind fun fault => ?_
      cases fault with
      | some e => exact leads_pure _
      | none => exact leads_pure _

/-- The code of a machine after a request. -/
theorem Request.ends_recodes (hf : m.functions = #[]) (fuel : Nat) (q : Request) :
    Ends (q.perform fuel) m (fun _ m' => q.Recodes m m') fun _ m' => q.Recodes m m' := by
  cases q with
  | load bytes => exact ends_bind (ends_load_recodes hf fuel bytes) fun _ _ h => ends_pure h
  | step => exact (leads_step_sameCode fuel).recodes hf _
  | run => exact (leads_run_sameCode fuel).recodes hf _
  | functionCall name args =>
    exact (leads_functionCall_sameCode fuel name args).discard.recodes hf _
  | receive payload => exact (leads_receive payload).recodes hf _
  | processInbox => exact (leads_processInbox_sameCode fuel).recodes hf _
  | clearError =>
    refine Leads.recodes (fun m => ends_modify fun hf => ?_) hf _
    split
    · exact ⟨hf, rfl⟩
    · exact ⟨hf, rfl⟩
  | _ =>
    exact (Request.leads_of_isQuiet (leads_callClosure_sameCode fuel) rfl).recodes hf _

/-! ### Addresses -/

/-- Every offset of the code of an image that is attached, its end included, is a word. -/
def Request.Addresses (q : Request) : Prop :=
  ∀ bytes image, q = .load bytes → Image.parse bytes = .ok image → image.code.size < 65536

/-- The machines that host code can reach with images whose code is addressed by words. A request
may answer or fail. It may also run out of fuel, so that a script is seen at any point of its
run. -/
inductive Addressed : Machine F → Prop
  /-- A machine without code, and without functions of the embedder. -/
  | start {m : Machine F} (hf : m.functions = #[]) (hcode : m.code = #[]) : Addressed m
  /-- A request. -/
  | served {m : Machine F} (before : Addressed m) (fuel : Nat) (q : Request) (hq : q.Addresses) :
    Addressed (stateAfter (q.perform fuel) m)

/-- The machines that are made have no code. -/
theorem addressed_make {s : Settings} (hm : make s = .ok m) : Addressed m := by
  refine .start (unused_make hm).functions ?_
  obtain ⟨nil, record, globals, listeners, heap, hl, steady⟩ := exists_steady_of_make hm
  have st := steady Heap.reliance_arbitrary (reliable_blank hl.wellFormed fun _ _ => hl.tidy)
  rw [st.same]
  rfl

theorem Addressed.size_code (hm : Addressed m) : m.functions = #[] ∧ m.code.size < 65536 := by
  induction hm with
  | start hf hcode => exact ⟨hf, by rw [hcode]; decide⟩
  | served _ fuel q hq ih =>
    obtain ⟨hf, hcode | ⟨bytes, image, hload, hp, hcode⟩⟩ := (q.ends_recodes ih.1 fuel).stateAfter
    · exact ⟨hf, hcode ▸ ih.2⟩
    · exact ⟨hf, hcode ▸ hq bytes image hload hp⟩

omit [HostFunctions F] in
theorem fetch_of_nop (hpc : m.pc.toNat < m.code.size)
    (hop : m.code.getD m.pc.toNat 0 = Opcode.nop.byte) : m.fetch = .ok (.nop, none) := by
  have hbyte : Opcode.ofByte? Opcode.nop.byte = some .nop := rfl
  simp only [fetch, Nat.not_le.2 hpc, if_false, hop, hbyte]
  rfl

omit [HostFunctions F] in
/-- An instruction acts with the program counter past it. -/
theorem execute_eq_perform {op : Opcode} {operand : Option UInt16}
    (hf : m.fetch = .ok (op, operand)) (hop : op ≠ .done) (host : UInt16 → Action F Unit) :
    execute host m = perform host op (operand.getD 0)
      { m with log := m.log.add (.fetched m.pc op), pc := m.pc + UInt16.ofNat op.width } := by
  simp only [execute, get_bind_apply, hf, if_neg hop]
  rfl

/-- A prologue ends behind its first `nop`. -/
theorem prologue_eq_of_nop {operand : Option UInt16} (hf : m.fetch = .ok (.nop, operand))
    (fuel : Nat) : prologue (fuel + 1) m = .ok none { m with pc := m.pc + 1 } := by
  simp only [prologue, get_bind_apply, hf]
  rfl

omit [HostFunctions F] in
/-- The sum of the program counter and the width of an instruction is an address of the code, or its
end. -/
theorem add_width_of_fetch {op : Opcode} {operand : Option UInt16}
    (hf : m.fetch = .ok (op, operand)) (hcode : m.code.size < 65536) :
    m.pc + UInt16.ofNat op.width = UInt16.ofNat (m.pc.toNat + op.width)
      ∧ (UInt16.ofNat (m.pc.toNat + op.width)).toNat = m.pc.toNat + op.width := by
  have hle := width_le_of_fetch hf
  refine ⟨?_, UInt16.toNat_ofNat_of_lt (by rw [UInt16.size]; omega)⟩
  rw [UInt16.ofNat_add, UInt16.ofNat_toNat]

/-- **The program counter does not wrap around.** As long as the code of every image that is
attached has less than 65536 bytes, an instruction that is executed at any point of a request, by a
script or in a call, is followed by the address behind it, and so is the `nop` that ends a prologue;
the address behind it is one of the code, or its end. -/
theorem Addressed.never_wraps (hm : Addressed m) {m' : Machine F} (hcode : m'.code = m.code)
    {op : Opcode} {operand : Option UInt16} (hf : m'.fetch = .ok (op, operand)) :
    ∃ next : UInt16, next.toNat = m'.pc.toNat + op.width ∧ next.toNat ≤ m'.code.size
      ∧ (op ≠ .done → ∀ host : UInt16 → Action F Unit, execute host m'
        = perform host op (operand.getD 0)
          { m' with log := m'.log.add (.fetched m'.pc op), pc := next })
      ∧ (op = .nop → ∀ fuel, prologue (fuel + 1) m' = .ok none { m' with pc := next }) := by
  obtain ⟨hsum, hnat⟩ := add_width_of_fetch hf (hcode ▸ hm.size_code.2)
  refine ⟨UInt16.ofNat (m'.pc.toNat + op.width), hnat, hnat.trans_le (width_le_of_fetch hf), ?_, ?_⟩
  · intro hop host
    rw [execute_eq_perform hf hop, hsum]
  · rintro rfl fuel
    rw [prologue_eq_of_nop hf, ← hsum]
    rfl

end Running

/-- The machine with the code of one `nop`, about to execute it. -/
theorem never_wraps_occupied : ∃ m : Machine Empty, Addressed occupied ∧ m.code = occupied.code
    ∧ m.fetch = .ok (.nop, none)
    ∧ ∃ next : UInt16, next.toNat = 1 ∧ prologue 1 m = .ok none { m with pc := next } := by
  have haddresses : (Request.load shortImage).Addresses := by
    rintro _ image ⟨⟩ hp
    have hparse : Image.parse shortImage = .ok ⟨[], #[Opcode.nop.byte]⟩ := rfl
    cases hparse.symm.trans hp
    decide
  have hm : Addressed occupied := .served (.start rfl rfl) 1 _ haddresses
  have hcode : occupied.code = #[Opcode.nop.byte] := by
    rw [occupied, crowded_eq]
    decide +kernel
  obtain ⟨m, hsame, hpc⟩ : ∃ m : Machine Empty, m.code = occupied.code ∧ m.pc = 0 := by
    generalize occupied = m₀
    exact ⟨{ m₀ with pc := 0 }, rfl, rfl⟩
  have hf : m.fetch = .ok (.nop, none) :=
    fetch_of_nop (by rw [hsame, hcode, hpc]; decide) (by rw [hsame, hcode, hpc]; rfl)
  obtain ⟨next, hnext, -, -, hprologue⟩ := hm.never_wraps hsame hf
  rw [hpc] at hnext
  exact ⟨m, hm, hsame, hf, next, hnext, hprologue rfl 0⟩

section Far

variable [HostFunctions F]

/-! ### Longer code -/

/-- Code with a byte at every address there is. It begins with a `nop` and a jump to the last
address, where there is another `nop`. -/
structure Far (code : Array UInt8) : Prop where
  size : code.size = 65536
  first : code.getD 0 0 = Opcode.nop.byte
  jump : code.getD 1 0 = Opcode.jump.byte
  low : code.getD 2 0 = 255
  high : code.getD 3 0 = 255
  last : code.getD 65535 0 = Opcode.nop.byte

omit [HostFunctions F] in
theorem Far.fetch_jump (hfar : Far m.code) (hpc : m.pc = 1) :
    m.fetch = .ok (.jump, some 65535) := by
  have hbyte : Opcode.ofByte? Opcode.jump.byte = some .jump := rfl
  have hone : UInt16.toNat 1 = 1 := rfl
  simp only [fetch, hpc, hone, hfar.size, hfar.jump, hbyte, hfar.low, hfar.high]
  rfl

omit [HostFunctions F] in
/-- The record of an image is made without touching the rest of the machine. -/
theorem ends_attempt_record (hroom : answers (Heap.arrayClone m.defaultRecord) m.heap = true)
    {E : Halt → Machine F → Prop} :
    Ends (attempt (arrayClone m.defaultRecord)) m
      (fun result m' => (∃ record, result = .ok record)
        ∧ m' = { m with heap := m'.heap, strayed := m'.strayed }) E := by
  have run : (arrayClone m.defaultRecord : Action F Ref) m
      = onHeap (Heap.arrayClone m.defaultRecord)
        { m with strayed := m.strayed || !m.heap.isIntact m.defaultRecord } := rfl
  rw [answers] at hroom
  rw [ends_iff, attempt, run, onHeap]
  simp only [detachHeap]
  cases hs : Heap.arrayClone m.defaultRecord m.heap with
  | ok r h => exact ⟨⟨r, rfl⟩, rfl⟩
  | error e h =>
    rw [hs] at hroom
    cases hroom

/-- A machine that has just loaded such code stands before the jump. -/
theorem ends_load_far {bytes : List UInt8} {image : Image} (hp : Image.parse bytes = .ok image)
    (hfar : Far image.code) (hroom : answers (Heap.arrayClone m.defaultRecord) m.heap = true)
    (fuel : Nat) : Ends (load (fuel + 1) bytes) m
      (fun _ m' => m'.code = image.code ∧ m'.pc = 1 ∧ m'.state = .ready ∧ m'.stack = m.stack.clear
        ∧ m'.pinned = m.pinned) fun _ _ => False := by
  rw [load, hp]
  refine ends_bind (Q := fun _ m₁ => (m₁.code = image.code ∧ m₁.pc = 0 ∧ m₁.stack = m.stack.clear
    ∧ m₁.pinned = m.pinned) ∧ m₁.heap = m.heap ∧ m₁.defaultRecord = m.defaultRecord)
    (ends_iff.2 ⟨⟨rfl, rfl, rfl, rfl⟩, rfl, rfl⟩) fun _ m₁ h₁ => ends_get_bind ?_
  obtain ⟨⟨hcode, hpc, hstack, hpinned⟩, hheap, hrecord⟩ := h₁
  refine ends_bind (ends_attempt_record (by rwa [hheap, hrecord])) fun result m₂ h₂ => ?_
  obtain ⟨⟨record, rfl⟩, h₂⟩ := h₂
  refine ends_bind (ends_modify (Q := fun _ m₃ => m₃ = { m₂ with
    locals := record, state := .ready }) rfl) fun _ m₃ h₃ => ?_
  have hcode₃ : m₃.code = image.code := by rw [h₃, h₂, ← hcode]
  have hpc₃ : m₃.pc = 0 := by rw [h₃, h₂, ← hpc]
  have hnop : m₃.fetch = .ok (.nop, none) :=
    fetch_of_nop (by rw [hpc₃, hcode₃, hfar.size]; decide) (by rw [hpc₃, hcode₃]; exact hfar.first)
  refine ends_bind (Q := fun fault m₄ => fault = none ∧ m₄ = { m₃ with pc := m₃.pc + 1 }) ?_
    fun fault m₄ h₄ => ?_
  · rw [ends_iff, prologue_eq_of_nop hnop]
    exact ⟨rfl, rfl⟩
  · obtain ⟨rfl, rfl⟩ := h₄
    refine ends_pure ⟨hcode₃, by rw [hpc₃]; rfl, by rw [h₃], ?_, ?_⟩
    · rw [h₃, h₂, ← hstack]
    · rw [h₃, h₂, ← hpinned]

/-- An instruction that does no more than move the program counter. -/
theorem step_of_moves (hready : m.state = .ready)
    (hroom : m.stack.hasRoom m.ambient.length = true) {op : Opcode} {operand : Option UInt16}
    (hf : m.fetch = .ok (op, operand)) (hop : op ≠ .done) {pc : UInt16}
    (hmove : ∀ (host : UInt16 → Action F Unit) (heap : Heap) (log : Log),
      perform host op (operand.getD 0) { m with heap, log, pc := m.pc + UInt16.ofNat op.width }
        = .ok () { m with heap, log, pc }) (fuel : Nat) :
    ∃ heap log, step fuel m = .ok () { m with heap, log, pc } := by
  obtain ⟨log, hc⟩ := collectGarbage_of_room hroom
  have hadvance : advance fuel m = .ok () { m with
      heap := (m.heap.collect (m.stack.slots.toList ++ m.ambient)).2
      log := log.add (.fetched m.pc op), pc } := by
    have hexecute := execute_eq_perform (m := { m with
      heap := (m.heap.collect (m.stack.slots.toList ++ m.ambient)).2, log }) hf hop
      (runHost (callClosure fuel))
    change EStateM.bind collectGarbage (fun _ => execute (runHost (callClosure fuel))) m = _
    rw [EStateM.bind, hc]
    exact hexecute.trans (hmove _ _ _)
  have hstep : step fuel m = .ok () { m with
      heap := (m.heap.collect (m.stack.slots.toList ++ m.ambient)).2
      log := log.add (.fetched m.pc op), pc } := by
    rw [step_eq_reporting hready]
    simp only [reporting, bind, EStateM.bind, attempt, hadvance]
    rfl
  exact ⟨_, _, hstep⟩

/-- The jump leads to the last address, -/
theorem Far.step_jump (hfar : Far m.code) (hready : m.state = .ready) (hpc : m.pc = 1)
    (hroom : m.stack.hasRoom m.ambient.length = true) (fuel : Nat) :
    ∃ heap log, step fuel m = .ok () { m with heap, log, pc := 65535 } := by
  refine step_of_moves hready hroom (hfar.fetch_jump hpc) (by simp) (fun host heap log => ?_) fuel
  have hjump : jumpTo 65535 { m with heap, log, pc := m.pc + UInt16.ofNat Opcode.jump.width }
      = (require (decide (UInt16.toNat 65535 < m.code.size)) .programCounter >>= fun _ =>
        modify fun m => { m with pc := 65535 })
        { m with heap, log, pc := m.pc + UInt16.ofNat Opcode.jump.width } := rfl
  rw [hfar.size] at hjump
  exact hjump

/-- and behind the instruction there the script goes on at its beginning. -/
theorem Far.step_last (hfar : Far m.code) (hready : m.state = .ready) (hpc : m.pc = 65535)
    (hroom : m.stack.hasRoom m.ambient.length = true) (fuel : Nat) :
    ∃ heap log, step fuel m = .ok () { m with heap, log, pc := 0 } := by
  have hf : m.fetch = .ok (.nop, none) :=
    fetch_of_nop (by rw [hpc, hfar.size]; decide) (by rw [hpc]; exact hfar.last)
  refine step_of_moves hready hroom hf (by simp) (fun host heap log => ?_) fuel
  have hsum : m.pc + UInt16.ofNat Opcode.nop.width = 0 := by rw [hpc]; rfl
  rw [hsum]
  rfl

end Far

/-- The code begins with the jump, and the rest of it does nothing. -/
theorem far_of_rest {rest : List UInt8} (hlength : rest.length = 65532)
    (hlast : rest[65531]? = some Opcode.nop.byte) :
    Far ([Opcode.nop.byte, Opcode.jump.byte, 255, 255] ++ rest).toArray := by
  have hget (i : Nat) : ([Opcode.nop.byte, Opcode.jump.byte, 255, 255] ++ rest).toArray.getD i 0
      = ([Opcode.nop.byte, Opcode.jump.byte, 255, 255] ++ rest)[i]?.getD 0 := by
    rw [Array.getD_eq_getD_getElem?, List.getElem?_toArray]
  refine ⟨by simp [hlength], by rw [hget]; rfl, by rw [hget]; rfl, by rw [hget]; rfl,
    by rw [hget]; rfl, ?_⟩
  rw [hget, List.getElem?_append_right (by simp)]
  simp [hlast]

/-- An image with such code. -/
def farImage : List UInt8 :=
  [0, 0, Opcode.nop.byte, Opcode.jump.byte, 255, 255] ++ List.replicate 65532 Opcode.nop.byte

theorem parse_farImage : ∃ image, Image.parse farImage = .ok image ∧ Far image.code := by
  refine ⟨⟨[], ([Opcode.nop.byte, Opcode.jump.byte, 255, 255]
    ++ List.replicate 65532 Opcode.nop.byte).toArray⟩, Image.parse_of_complete ?_,
    far_of_rest ?_ ?_⟩
  · exact ⟨0, ⟨by rw [farImage]; rfl, by simp⟩, rfl⟩
  · rw [List.length_replicate]
  · rw [List.getElem?_replicate, if_pos (by decide)]

/-- A machine that loads the image stands before the jump. -/
theorem perform_load_farImage {m : Machine Empty}
    (hroom : answers (Heap.arrayClone m.defaultRecord) m.heap = true) :
    ∃ m', Request.perform 1 (.load farImage) m = .ok () m' ∧ Far m'.code ∧ m'.pc = 1
      ∧ m'.state = .ready ∧ m'.stack = m.stack.clear ∧ m'.pinned = m.pinned := by
  obtain ⟨image, hp, hfar⟩ := parse_farImage
  have hload := ends_load_far hp hfar hroom 0
  have hbind : Request.perform 1 (.load farImage) m
      = EStateM.bind (load 1 farImage) (fun _ => pure ()) m := rfl
  rw [hbind, EStateM.bind]
  cases hs : load 1 farImage m with
  | error e m => exact (hload.of_error hs).elim
  | ok a m' =>
    obtain ⟨hcode, hpc, hstate, hstack, hpinned⟩ := hload.of_ok hs
    exact ⟨m', rfl, hcode ▸ hfar, hpc, hstate, hstack, hpinned⟩

/-- **With longer code the program counter wraps around:** a script can be ready to execute the
instruction at the last address, and goes on at address zero. -/
theorem wraps_around : ∃ m m' : Machine Empty, Arising (fun _ _ => True) m ∧ m.state = .ready
    ∧ m.fetch = .ok (.nop, none) ∧ m.pc.toNat = 65535
    ∧ step 1 m = .ok () m' ∧ m'.state = .ready ∧ m'.pc = 0 := by
  have hrecord : answers (Heap.arrayClone crowded.defaultRecord) crowded.heap = true := by
    rw [crowded_eq]
    decide +kernel
  obtain ⟨m₁, hload, hfar, hpc, hstate, hstack, hpinned⟩ := perform_load_farImage hrecord
  have hroom : m₁.stack.hasRoom m₁.ambient.length = true := by
    rw [ambient, hstack, hpinned]
    rfl
  obtain ⟨heap, log, hjump⟩ := hfar.step_jump hstate hpc hroom 1
  obtain ⟨heap', log', hlast⟩ :=
    Far.step_last (m := { m₁ with heap, log, pc := 65535 }) hfar hstate rfl hroom 1
  have start : Arising (fun _ _ => True) crowded := .start ⟨rfl, rfl, rfl⟩
  have loaded : Arising (fun _ _ => True) m₁ := start.answered 1 _ trivial hload
  refine ⟨_, _, loaded.answered 1 .step trivial hjump, hstate, ?_, rfl, hlast, hstate, rfl⟩
  have hlt : UInt16.toNat 65535 < m₁.code.size := by
    rw [hfar.size]
    decide
  exact fetch_of_nop hlt hfar.last

end Machine

end SwarmVm
