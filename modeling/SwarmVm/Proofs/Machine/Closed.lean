import SwarmVm.Proofs.Machine.Calls
import SwarmVm.Proofs.Machine.Fresh

/-!
# Closed machines stay closed

A machine is closed when everything it can get at is there: the objects it refers to, and whatever
can be reached from them. A step first gives back all that cannot be reached, and the instruction
then makes new objects in the freed slots; so a closed machine stays closed only if the collection
knows every object that is still in use, and if no instruction holds on to one across a collection.

The collection knows the stack and the registers, and the objects that the shared store and the
inbox own are permanent. Instructions inside a call are steady (`Instructions`). Calls and returns
move the floor and change the activation record, but handle objects that the stack or the caller
had.

## Main definitions

* `Machine.Closed` — a machine without dangling references
* `Machine.Moves` — how an instruction changes a machine
* `Machine.AtHostCall` — the next instruction calls a host function

## Main results

* `Machine.closed_collect` — a collection
* `Machine.moves_execute` — an instruction
* `Machine.closed_step` — a step
-/

namespace SwarmVm

namespace Machine

open Heap (Reliance Keeps Whole)

variable {F : Type} {m m' m'' : Machine F} {P : Heap → Ref → Prop}

/-- The heap is well formed and the stack within its bounds, everything that can be reached from the
stack and the registers is there, and what the shared store and the inbox own is permanent. -/
structure Closed (m : Machine F) : Prop extends m.Reliable Whole where
  /-- What the store and the inbox own is permanent. -/
  permanent : ∀ r ∈ m.stored, (m.heap.header r).permanent = true

/-- The code and what is reported of a run do not matter. -/
theorem Closed.report (hm : m.Closed) {code : Array UInt8} {pc : UInt16} {state : RunState}
    {error : Option Fault} {reports : Array Fault} {log : Log} :
    Closed { m with code, pc, state, error, reports, log } :=
  ⟨⟨hm.wellFormed, hm.floor, hm.ceiling, hm.slots, hm.registers⟩, hm.permanent⟩

theorem stored_blank {s : Settings} {nil record globals listeners : Ref} {heap : Heap} :
    (blank s nil record globals listeners heap : Machine F).stored = [] := by
  simp [stored, blank, inbox_toList_make]

theorem closed_blank {s : Settings} {nil record globals listeners : Ref} {heap : Heap}
    (hl : heap.Supports [listeners, globals, record, nil]) :
    (blank s nil record globals listeners heap : Machine F).Closed where
  toReliable := reliable_blank hl.wellFormed hl.whole
  permanent r hr := by
    rw [stored_blank] at hr
    cases hr

/-! ### Collections -/

theorem mem_registers_of_stored {r : Ref} (hr : r ∈ m.stored) : r ∈ m.registers :=
  List.mem_append_right _ hr

/-- The roots that the machine gives to a collection, and the permanent objects, are enough to keep
everything that it can get at. -/
theorem Closed.reachable (hm : m.Closed) {r e : Ref}
    (hr : r ∈ m.stack.slots.toList ∨ r ∈ m.registers)
    (he : Relation.ReflTransGen m.heap.PointsTo r e) :
    m.heap.isValid e = true ∧ m.heap.Reachable (m.stack.slots.toList ++ m.ambient) e := by
  have hwhole : m.heap.Whole r := hr.elim (hm.slots r) (hm.registers r)
  refine ⟨hwhole e he, r, hwhole.isValid, ?_, he⟩
  rcases hr with hr | hr
  · exact .inl (List.mem_append_left _ hr)
  · rcases List.mem_append.1 hr with hr | hr
    · exact .inl (List.mem_append_right _ hr)
    · exact .inr (hm.permanent r hr)

theorem closed_collect (hm : m.Closed) : Closed { m with
    heap := (m.heap.collect (m.stack.slots.toList ++ m.ambient)).2 } := by
  have layout := hm.wellFormed.layout
  have hwhole : ∀ r, r ∈ m.stack.slots.toList ∨ r ∈ m.registers →
      (m.heap.collect (m.stack.slots.toList ++ m.ambient)).2.Whole r := by
    intro r hr
    refine Heap.whole_of_closed (V := {e | ∃ r, (r ∈ m.stack.slots.toList ∨ r ∈ m.registers)
      ∧ Relation.ReflTransGen m.heap.PointsTo r e}) ?_ ?_ ⟨r, hr, .refl⟩
    · rintro e ⟨r, hr, he⟩
      exact (Heap.isValid_collect_iff layout).2 (hm.reachable hr he)
    · rintro e ⟨r, hr, he⟩ e' he'
      have hv := (Heap.isValid_collect_iff layout).2 (hm.reachable hr he)
      exact ⟨r, hr, he.tail ((Heap.pointsTo_collect_iff hm.wellFormed hv).1 he')⟩
  refine ⟨⟨Heap.wellFormed_collect hm.wellFormed _, hm.floor, hm.ceiling,
    fun r hr => hwhole r (.inl hr), fun r hr => hwhole r (.inr hr)⟩, fun r hr => ?_⟩
  have hv := (hwhole r (.inr (mem_registers_of_stored hr))).isValid
  change ((m.heap.collect (m.stack.slots.toList ++ m.ambient)).2.header r).permanent = true
  rw [Heap.header_collect layout hv]
  exact hm.permanent r hr

/-! ### Instructions -/

/-- `m'` comes from `m` by an instruction: the registers of the current call may be others. -/
structure Moves (P : Heap → Ref → Prop) (m m' : Machine F) : Prop where
  /-- Only the heap, the log and the registers of the call are different. -/
  same : m' = { m with heap := m'.heap, stack := m'.stack, pc := m'.pc, log := m'.log
                       locals := m'.locals, frameDepth := m'.frameDepth, state := m'.state }
  /-- The objects it refers to still meet the condition, -/
  reliable : m'.Reliable P
  /-- and so do all others. -/
  relies : ∀ r, P m.heap r → P m'.heap r
  /-- Objects are as permanent as they were. -/
  permanent : ∀ r, m.heap.isValid r = true → m'.heap.isValid r = true
    ∧ (m'.heap.header r).permanent = (m.heap.header r).permanent

theorem Steady.moves (st : Steady P m m') : Moves P m m' where
  same := by rw [st.same]
  reliable := st.reliable
  relies := st.relies
  permanent r hv := ⟨st.keeps.isValid r hv, st.keeps.permanent r hv⟩

theorem Moves.trans (mv : Moves P m m') (mv' : Moves P m' m'') : Moves P m m'' where
  same := by rw [mv'.same, mv.same]
  reliable := mv'.reliable
  relies r hr := mv'.relies r (mv.relies r hr)
  permanent r hv := by
    obtain ⟨hv', hp⟩ := mv.permanent r hv
    obtain ⟨hv'', hp'⟩ := mv'.permanent r hv'
    exact ⟨hv'', hp'.trans hp⟩

theorem Moves.steady (mv : Moves P m m') (st : Steady P m' m'') : Moves P m m'' :=
  mv.trans st.moves

/-- The registers of the call are set, to objects that meet the condition. -/
theorem moves_of_registers (hm : m.Reliable P) {s : OperandStack} {pc : UInt16} {locals : Ref}
    {depth : Nat} (floor : s.base ≤ s.depth) (ceiling : s.depth ≤ s.capacity)
    (slots : ∀ r ∈ s.slots.toList, P m.heap r) (hl : P m.heap locals) :
    Moves P m { m with stack := s, pc, locals, frameDepth := depth } where
  same := rfl
  reliable := by
    refine ⟨hm.wellFormed, floor, ceiling, slots, fun r hr => ?_⟩
    have hr' : r = locals ∨ r ∈ m.registers := by
      simp only [registers, ambient, List.cons_append, List.nil_append, List.mem_cons] at hr ⊢
      tauto
    exact hr'.elim (fun he => he ▸ hl) (hm.registers r)
  relies _ := id
  permanent _ hv := ⟨hv, rfl⟩

/-- The program counter, the state and the log do not matter. -/
theorem moves_of_pc (hm : m.Reliable P) {pc : UInt16} {state : RunState} {log : Log} :
    Moves P m { m with pc, state, log } where
  same := rfl
  reliable := ⟨hm.wellFormed, hm.floor, hm.ceiling, hm.slots, hm.registers⟩
  relies _ := id
  permanent _ hv := ⟨hv, rfl⟩

/-- Opening a call moves to it. -/
theorem Entered.moves {target : Target} {argc : Nat} {record base address : Ref} {m₁ : Machine F}
    (en : Entered P m target argc record base address m₁) :
    Moves P m (m₁.withFrame argc record base address) := by
  have hm₁ := en.still.reliable
  refine en.still.toSteady.moves.trans (moves_of_registers
    (s := m₁.stack.opened argc base m₁.locals address) hm₁ ?_ ?_ (fun r hr => ?_) en.record.1)
  · rw [OperandStack.depth_opened]
    exact le_rfl
  · rw [OperandStack.depth_opened, en.still.stack]
    exact en.room
  · rcases OperandStack.mem_opened hr with hr | rfl | rfl | rfl
    · exact hm₁.slots r hr
    · exact en.base.1
    · exact hm₁.locals
    · exact en.address.1

theorem yields_popInt (hm : m.Reliable P) : Yields P popInt m fun _ _ => True :=
  (yields_pop hm).bind fun _ _ st _ =>
    yields_get_bind ((yields_orFail st.reliable).imp fun _ _ _ _ => trivial)

/-- The activation record that is cleared may be any object. -/
theorem moves_arrayClear (rel : Reliance P) (hm : m.Reliable P) {a : Ref}
    (hv : m.heap.isValid a = true) {E : Halt → Machine F → Prop} :
    Ends (arrayClear a) m (fun _ m' => Moves P m m') E := by
  have wf := hm.wellFormed
  obtain ⟨ev, hv', hp, -⟩ := Heap.clears_arrayClear (A := ∅) wf hv
  refine (ends_arrayClear wf hv).imp (fun _ m' he => ?_) fun _ _ => id
  subst he
  have hkept : ∀ r, P m.heap r → P (m.heap.arrayClear a) r := fun r => rel.clear wf hv
  -- what the new heap is must not be looked at when the registers are compared
  generalize m.heap.arrayClear a = h at ev hv' hp hkept ⊢
  refine ⟨rfl, ⟨ev.wellFormed, hm.floor, hm.ceiling, fun r hr => hkept r (hm.slots r hr),
    fun r hr => hkept r (hm.registers r hr)⟩, hkept, fun r hr => ?_⟩
  by_cases ne : r = a
  · rw [ne]
    exact ⟨hv', hp⟩
  · exact ⟨ev.isValid r ne hr, ev.permanent r ne hr⟩

/-- A return moves to whatever the bookkeeping says. -/
theorem moves_leaveFrame (rel : Reliance P) (valid : ∀ {h r}, P h r → h.isValid r = true)
    (hm : m.Reliable P) {result : Option Ref} (hr : ∀ r, result = some r → P m.heap r) :
    Ends (leaveFrame result) m (fun _ m' => Moves P m m')
      fun e m' => e ≠ .outOfFuel ∧ Moves P m m' := by
  refine ends_get_bind ((yields_require hm).ends_bind Steady.moves fun _ m' _ _ h => ?_)
  obtain ⟨rfl, _⟩ := h
  refine ends_get_bind ((yields_require hm).ends_bind Steady.moves fun _ m₀ _ _ h => ?_)
  obtain ⟨rfl, _⟩ := h
  have floor := hm.floor
  have ceiling := hm.ceiling
  have hdepth : ((m₀.stack.truncate m₀.stack.base).setBase (m₀.stack.base - 3)).depth
      = m₀.stack.base := OperandStack.depth_truncate floor
  have hstart : Moves P m₀ { m₀ with
      stack := (m₀.stack.truncate m₀.stack.base).setBase (m₀.stack.base - 3) } := by
    refine moves_of_registers hm ?_ ?_ (fun r hr => ?_) hm.locals
    · exact Nat.min_le_right _ _
    · rw [hdepth]
      exact floor.trans ceiling
    · exact hm.slots r (OperandStack.mem_of_mem_truncate hr)
  refine ends_bind (ends_modify (Q := fun _ m₁ => Moves P m₀ m₁) hstart) fun _ m₁ mv₁ => ?_
  refine (yields_popInt mv₁.reliable).ends_bind mv₁.steady fun address m₂ mv₂ _ _ => ?_
  refine (yields_pop mv₂.reliable).ends_bind mv₂.steady fun locals m₃ mv₃ _ hl => ?_
  refine (yields_popInt mv₃.reliable).ends_bind mv₃.steady
    fun base m₄ mv₄ st₄ _ => ends_get_bind ?_
  refine ends_bind (moves_arrayClear rel mv₄.reliable (valid mv₄.reliable.locals))
    fun _ m₅ mv₅' => ?_
  have mv₅ := mv₄.trans mv₅'
  have hl₅ := mv₅'.relies locals (st₄.relies locals hl)
  refine ends_bind (ends_modify (Q := fun _ m₆ => Moves P m₀ m₆) (mv₅.trans
    (moves_of_registers mv₅.reliable ?_ mv₅.reliable.ceiling mv₅.reliable.slots hl₅)))
    fun _ m₆ mv₆ => ends_get_bind ?_
  · exact Nat.min_le_right _ _
  · have hres : P m₆.heap (result.getD m₆.nil) := by
      cases result with
      | none => exact mv₆.reliable.nil
      | some r => exact mv₆.relies r (hr r rfl)
    exact Ends.imp (yields_push mv₆.reliable hres) (fun _ _ h => mv₆.steady h.1)
      fun _ _ h => ⟨h.1, mv₆.steady h.2⟩

/-- A call of a closure that does not lead to a host function. -/
theorem moves_call (rel : Reliance P) (hm : m.Reliable P) {host : UInt16 → Action F Unit}
    (hcode : ∀ c id, m.value (m.stack.slots.getD (m.stack.depth - 1) 0) = .closure c →
      c.target ≠ .host id) :
    Ends (call host) m (fun _ m' => Moves P m m') fun e m' => e ≠ .outOfFuel ∧ Moves P m m' := by
  refine ends_bind ((entered_enter rel hm).imp (fun _ _ => id)
    fun _ _ h => ⟨h.1, h.2.toSteady.moves⟩) fun target m' h => ?_
  obtain ⟨argc, record, base, address, m₁, en, rfl⟩ := h
  cases target with
  | host id =>
    obtain ⟨c, hc, ht⟩ := en.closure
    exact absurd ht (hcode c id hc)
  | code address' => exact ends_modify (en.moves.trans (moves_of_pc en.moves.reliable))

/-- The next instruction calls a host function. -/
def AtHostCall (m : Machine F) : Prop := ∃ operand c id, m.fetch = .ok (.call, operand)
  ∧ m.value (m.stack.slots.getD (m.stack.depth - 1) 0) = .closure c ∧ c.target = .host id

theorem moves_perform (rel : Reliance P) (valid : ∀ {h r}, P h r → h.isValid r = true)
    (hm : m.Reliable P) {host : UInt16 → Action F Unit} {op : Opcode} {operand : UInt16}
    (hcode : op = .call → ∀ c id, m.value (m.stack.slots.getD (m.stack.depth - 1) 0) = .closure c →
      c.target ≠ .host id) :
    Ends (perform host op operand) m (fun _ m' => Moves P m m')
      fun e m' => e ≠ .outOfFuel ∧ Moves P m m' := by
  by_cases hop : op.switchesFrame = false
  · exact Ends.imp (yields_perform rel hm hop) (fun _ _ h => h.1.moves)
      fun _ _ h => ⟨h.1, h.2.moves⟩
  cases op with
  | call => exact moves_call rel hm (hcode rfl)
  | ret0 => exact moves_leaveFrame rel valid hm (by simp)
  | ret1 =>
    refine ends_get_bind ((yields_require hm).ends_bind Steady.moves fun _ m' _ _ h => ?_)
    obtain ⟨rfl, _⟩ := h
    refine (yields_pop hm).ends_bind Steady.moves fun r m₁ mv₁ _ hr => ?_
    refine (moves_leaveFrame rel valid mv₁.reliable fun r' he => ?_).imp
      (fun _ _ mv => mv₁.trans mv) fun _ _ h => ⟨h.1, mv₁.trans h.2⟩
    rw [Option.some.injEq] at he
    exact he ▸ hr
  | _ => exact absurd rfl hop

/-- One instruction. -/
theorem moves_execute (rel : Reliance P) (valid : ∀ {h r}, P h r → h.isValid r = true)
    (hm : m.Reliable P) {host : UInt16 → Action F Unit} (hcall : ¬ m.AtHostCall) :
    Ends (execute host) m (fun _ m' => Moves P m m')
      fun e m' => e ≠ .outOfFuel ∧ Moves P m m' := by
  refine ends_get_bind ?_
  cases hf : m.fetch with
  | error e => exact ends_throw ⟨by simp, (Steady.refl hm).moves⟩
  | ok p =>
    obtain ⟨op, operand⟩ := p
    refine ends_get_bind (ends_bind (ends_modify (Q := by
      intro _ m₁
      exact m₁ = { m with log := m.log.add (.fetched m.pc op) }) rfl) fun _ m₁ h₁ => ?_)
    subst h₁
    split
    · exact ends_modify (moves_of_pc hm)
    · refine ends_bind (ends_modify (Q := fun _ m₂ => m₂ = { m with
        log := m.log.add (.fetched m.pc op), pc := m.pc + UInt16.ofNat op.width }) rfl)
        fun _ m₂ h₂ => ?_
      subst h₂
      have mv₂ : Moves P m { m with
          log := m.log.add (.fetched m.pc op), pc := m.pc + UInt16.ofNat op.width } :=
        moves_of_pc hm
      refine (moves_perform rel valid mv₂.reliable fun hop c id hc ht => hcall ?_).imp
        (fun _ _ mv => mv₂.trans mv) fun _ _ h => ⟨h.1, mv₂.trans h.2⟩
      subst hop
      exact ⟨operand, c, id, hf, hc, ht⟩

/-- What moves from a closed machine is closed. -/
theorem Moves.closed (mv : Moves Whole m m') (hm : m.Closed) : m'.Closed where
  toReliable := mv.reliable
  permanent r hr := by
    have hstored : m'.stored = m.stored := by rw [mv.same]; rfl
    rw [hstored] at hr
    have hv := (hm.registers r (mem_registers_of_stored hr)).isValid
    rw [(mv.permanent r hv).2, hm.permanent r hr]

/-- New machines are closed. -/
theorem closed_make {s : Settings} (hm : make s = .ok m) : m.Closed := by
  obtain ⟨nil, record, globals, listeners, heap, hl, steady⟩ := exists_steady_of_make hm
  have hb := closed_blank (F := F) (s := s) hl
  exact (steady Heap.reliance_whole hb.toReliable).moves.closed hb

/-! ### Steps -/

theorem Moves.strayed (mv : Moves P m m') : m'.strayed = m.strayed := by rw [mv.same]

/-- A collection does not change what the next instruction is. -/
theorem not_atHostCall_collect (hm : m.Closed) (hcall : ¬ m.AtHostCall) {log : Log} :
    ¬ AtHostCall { m with
      heap := (m.heap.collect (m.stack.slots.toList ++ m.ambient)).2, log } := by
  rintro ⟨operand, c, id, hf, hv, ht⟩
  have hvalid := (Heap.kind_of_value (h := (m.heap.collect _).2) hv (by simp)).1
  refine hcall ⟨operand, c, id, hf, ?_, ht⟩
  rw [← hv]
  exact (Heap.value_collect hm.wellFormed.layout hvalid).symm

/-- The bytes of an instruction that is fetched are all there. -/
theorem width_le_of_fetch {op : Opcode} {operand : Option UInt16}
    (hf : m.fetch = .ok (op, operand)) : m.pc.toNat + op.width ≤ m.code.size := by
  rw [fetch] at hf
  split at hf
  · cases hf
  · next hpc =>
    split at hf
    · cases hf
    · next op' _ =>
      split at hf
      · next hop =>
        split at hf
        · cases hf
        · cases hf
          omega
      · next hop =>
        cases hf
        rw [Opcode.width, if_neg hop]
        omega

variable [HostFunctions F]

theorem closed_instruction (hm : m.Closed) (hcall : ¬ m.AtHostCall) (fuel : Nat) :
    Ends (do collectGarbage; execute (runHost (callClosure fuel))) m
      (fun _ m' => m'.Closed ∧ m'.strayed = m.strayed)
      fun e m' => e ≠ .outOfFuel ∧ m'.Closed ∧ m'.strayed = m.strayed := by
  refine ends_bind (ends_collectGarbage.imp (fun _ _ => id) fun _ _ h => ?_) fun _ m₁ h => ?_
  · exact ⟨h.1, h.2 ▸ hm, by rw [h.2]⟩
  obtain ⟨log, rfl⟩ := h
  have hm₁ : Closed { m with
      heap := (m.heap.collect (m.stack.slots.toList ++ m.ambient)).2, log } :=
    (closed_collect hm).report
  exact (moves_execute Heap.reliance_whole Whole.isValid hm₁.toReliable
    (not_atHostCall_collect hm hcall)).imp (fun _ _ mv => ⟨mv.closed hm₁, mv.strayed⟩)
    fun _ _ h => ⟨h.1, h.2.closed hm₁, h.2.strayed⟩

/-- **Closed machines stay closed.** From a closed machine with at most 65535 bytes of code, a step
that does not call a host function ends, whether its instruction succeeds or faults. It leaves a
closed machine, no access goes to a segment or slot that is not there, and the instruction is inside
the code. -/
theorem closed_step (hm : m.Closed) (hcode : m.code.size ≤ 65535) (hcall : ¬ m.AtHostCall)
    (fuel : Nat) :
    (∃ m', step fuel m = .ok () m' ∧ m'.Closed ∧ m'.strayed = m.strayed)
      ∧ ∀ op operand, m.fetch = .ok (op, operand) → m.pc.toNat + op.width ≤ m.code.size
        ∧ (m.pc + UInt16.ofNat op.width).toNat = m.pc.toNat + op.width := by
  constructor
  · have hstep : Ends (step fuel) m (fun _ m' => m'.Closed ∧ m'.strayed = m.strayed)
        fun _ _ => False := by
      refine ends_get_bind ?_
      split
      · refine ends_bind ((ends_attempt (closed_instruction hm hcall fuel)).imp (fun _ _ => id)
          fun _ _ h => h.2.1 h.1) fun a m₁ h => ?_
        rcases h with ⟨v, rfl, h⟩ | ⟨e, rfl, -, h⟩
        · exact ends_pure h
        · refine ends_bind (ends_modify (Q := fun _ m₂ => m₂.Closed ∧ m₂.strayed = m.strayed)
            ⟨h.1.report, h.2⟩) fun _ m₂ h₂ => ?_
          refine ends_bind (ends_modify (Q := fun _ m₃ => m₃.Closed ∧ m₃.strayed = m.strayed)
            ⟨h₂.1.report, h₂.2⟩) fun _ m₃ h₃ => ends_get_bind ?_
          split
          · exact ends_modify ⟨h₃.1.report, h₃.2⟩
          · exact ends_pure h₃
      · exact ends_pure ⟨hm, rfl⟩
    cases hs : step fuel m with
    | ok u m' => exact ⟨m', rfl, hstep.of_ok hs⟩
    | error e m' => exact absurd (hstep.of_error hs) id
  · intro op operand hf
    have hle := width_le_of_fetch hf
    refine ⟨hle, ?_⟩
    have hw : op.width ≤ 3 := by rw [Opcode.width]; split <;> omega
    rw [UInt16.toNat_add, Heap.toNat_ofNat_of_lt (by omega), Nat.mod_eq_of_lt (by omega)]

/-- A machine that has just been made, about to make a table. -/
def beginner : Machine Empty :=
  { blank { heapSize := 192 } 0 1 2 3 smallHeap with
    code := #[Opcode.pushTable.byte], state := .ready }

theorem closed_step_beginner : beginner.Closed ∧ beginner.fetch = .ok (.pushTable, none)
    ∧ ∃ m', step 1 beginner = .ok () m' ∧ m'.Closed ∧ m'.strayed = false := by
  have hm : beginner.Closed :=
    (closed_blank ((ends_coreObjects (by decide)).of_ok coreObjects_small)).report
  have hf : beginner.fetch = .ok (.pushTable, none) := rfl
  have hcall : ¬ beginner.AtHostCall := by
    rintro ⟨operand, c, id, h, _⟩
    rw [hf] at h
    cases h
  exact ⟨hm, hf, (closed_step hm (by decide) hcall 1).1⟩

end Machine

end SwarmVm
