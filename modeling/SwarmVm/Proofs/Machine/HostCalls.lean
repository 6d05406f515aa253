import SwarmVm.Proofs.Machine.Fresh
import SwarmVm.Proofs.Machine.Frames
import SwarmVm.Proofs.Machine.HostFunctions

/-!
# Calls from host code

Host code calls a closure by putting the operands of the call on the stack, opening the call, and
executing instructions until it has returned. Between two calls of this kind the machine does not
notice that there was one: the stack and all registers are as before, whether the call succeeds or
fails.

The two cases are different in kind. A call that succeeds restores the registers from the
bookkeeping on the stack, so it is the chain of callers (`Frames`) that tells what they are. A call
that fails has them restored from a copy; what has to be shown is that the stack below was not
touched. In either case the closure may call host functions, which may call closures: the statement
is proved for all nested calls together, by induction on the fuel. A condition that lasts is carried
along, provided that the collections do not end it. What is done in their place does not matter to
the argument, so it is made for any action that is confined.

## Main definitions

* `Machine.Loaded` — a machine with operands on its stack
* `Machine.callWith` — a call with another action in the place of the collections
* `Machine.Neutral` — the registers are the same

## Main results

* `Machine.sound_make` — new machines are sound
* `Machine.Progress.ends_runFrames` — executing instructions until a call has returned
* `Machine.ends_callClosure` — calls from host code keep machines standard, and are confined
* `Machine.neutral_callClosure` — calls from host code leave the registers alone
-/

namespace SwarmVm

namespace Machine

open Heap (Arbitrary Stays)

variable {F : Type} {entry m m' m'' : Machine F} {k : Nat} {I : Machine F → Prop}

/-- New machines are sound. -/
theorem sound_make {s : Settings} (hm : make s = .ok m) : m.Sound := by
  obtain ⟨hr, tidy⟩ := reliable_make hm
  exact ⟨hr.wellFormed, tidy, hr.floor, hr.ceiling⟩

theorem sound_blank {s : Settings} {nil record globals listeners : Ref} {heap : Heap}
    (wf : heap.WellFormed) (tidy : heap.Tidy) {stack : OperandStack} {pc : UInt16}
    {state : RunState}
    (floor : stack.base ≤ stack.depth) (ceiling : stack.depth ≤ stack.capacity) :
    Sound { (blank s nil record globals listeners heap : Machine F) with stack, pc, state } :=
  ⟨wf, tidy, floor, ceiling⟩

/-! ### Operands -/

/-- `m` comes from `entry` by putting `k` objects on the stack. -/
structure Loaded (k : Nat) (entry m : Machine F) : Prop
    extends Kept entry.stack.depth entry m where
  /-- The stack is deeper. -/
  depth : m.stack.depth = entry.stack.depth + k
  /-- The floor is the same, -/
  base : m.stack.base = entry.stack.base
  /-- and so are the activation record, -/
  locals : m.locals = entry.locals
  /-- the program counter -/
  pc : m.pc = entry.pc
  /-- and the number of open calls. -/
  frameDepth : m.frameDepth = entry.frameDepth

namespace Loaded

theorem refl (hm : m.Standard) : Loaded 0 m m := ⟨.refl hm, rfl, rfl, rfl, rfl, rfl⟩

theorem still (ld : Loaded k entry m) (st : Still Arbitrary m m') : Loaded k entry m' := by
  have w := st.toSteady.within ld.standard
  refine ⟨⟨⟨w.standard, st.capacity.trans ld.capacity, fun i hi => ?_⟩,
    fun r hr => (ld.stays r hr).trans (st.keeps.stays r)⟩, ?_, w.base.trans ld.base,
    w.locals.trans ld.locals, st.pc.trans ld.pc, w.frameDepth.trans ld.frameDepth⟩
  · rw [st.stack]
    exact ld.slots i hi
  · rw [st.stack]
    exact ld.depth

/-- One more object is put on the stack. -/
theorem ends_push (ld : Loaded k entry m) (r : Ref) : Ends (push r) m
    (fun _ m' => Loaded (k + 1) entry m' ∧ m'.heap = m.heap
      ∧ m'.stack.slots = m.stack.slots.push r)
    fun _ m' => Kept entry.stack.depth entry m' := by
  have hdepth := ld.depth
  have standard := (upholds_push r).confined m ld.standard
  rw [ends_iff, push, OperandStack.push] at standard ⊢
  by_cases hroom : m.stack.depth < m.stack.capacity
  · simp only [hroom, if_true] at standard ⊢
    refine ⟨⟨⟨⟨standard.standard, ld.capacity, fun i hi => ?_⟩, ld.stays⟩, ?_, ld.base, ld.locals,
      ld.pc, ld.frameDepth⟩, trivial, trivial⟩
    · have hlt : i < m.stack.slots.size := by
        rw [OperandStack.depth] at hdepth
        omega
      rw [Array.getElem?_push_lt hlt, ← Array.getElem?_eq_getElem hlt]
      exact ld.slots i hi
    · rw [OperandStack.depth, Array.size_push]
      rw [OperandStack.depth] at hdepth
      omega
  · simp only [hroom, if_false]
    exact ld.toKept

theorem ends_forM_push (ld : Loaded k entry m) (l : List Ref) : Ends (l.forM push) m
    (fun _ m' => Loaded (k + l.length) entry m') fun _ m' => Kept entry.stack.depth entry m' := by
  induction l generalizing k m with
  | nil => exact ends_pure ld
  | cons r l ih =>
    refine ends_bind (ld.ends_push r) fun _ m₁ h₁ => ?_
    refine (ih h₁.1).imp (fun _ m' h => ?_) fun _ _ => id
    rw [List.length_cons, show k + (l.length + 1) = k + 1 + l.length by omega]
    exact h

theorem kept (ld : Loaded k entry m) (kp : Kept entry.stack.depth m m') :
    Kept entry.stack.depth entry m' := by
  refine ⟨ld.toAgrees.trans kp.toAgrees, fun r hr => (ld.stays r hr).trans (kp.stays r ?_)⟩
  rw [ld.locals]
  exact hr.imp_left ld.toAgrees.heldBelow

theorem opened (ld : Loaded k entry m) (op : Opened entry.stack.depth m m') :
    Opened entry.stack.depth entry m' := by
  have hsite : m.siteAt entry.stack.depth = entry.siteAt entry.stack.depth := by
    rw [siteAt, siteAt, ld.base, ld.locals, ld.pc]
  exact ⟨ld.kept op.toKept, hsite ▸ op.called, by rw [op.frameDepth, ld.frameDepth]⟩

theorem returned (ld : Loaded k entry m) (re : Returned entry.stack.depth m m') :
    Returned entry.stack.depth entry m' :=
  ⟨ld.kept re.toKept, re.depth, re.base.trans ld.base, re.locals.trans ld.locals,
    re.pc.trans ld.pc, re.frameDepth.trans ld.frameDepth⟩

end Loaded

theorem eq_of_toInt_ofNat {n a : Nat} (hn : n ≤ 65535) (ha : (Int16.ofNat n).toInt = a) :
    a = n := by
  rw [Int16.toInt_ofNat', show Int16.size = 65536 from rfl, Int.bmod_def] at ha
  split at ha <;> omega

/-- The operands are on the stack, the number of arguments among them. A number that does not fit in
fifteen bits is put there as a negative one, and is not the number of arguments of any call. -/
theorem ends_pushOperands (hm : entry.Standard) (closure : Ref) (args : List Ref) :
    Ends (pushOperands closure args) entry
      (fun _ m => ∃ k, Loaded k entry m
        ∧ ∀ argc, m.Operands argc → m.stack.depth - argc - 2 = entry.stack.depth)
      fun _ m => Kept entry.stack.depth entry m := by
  have hcapacity := hm.capacity
  have ld := Loaded.refl hm
  refine ends_get_bind ?_
  cases hroom : entry.stack.hasRoom (args.length + 2) with
  | false => exact ends_throw ld.toKept
  | true =>
    rw [OperandStack.hasRoom, decide_eq_true_eq] at hroom
    refine ends_bind (ends_pure rfl : Ends (pure ()) entry (fun _ m => m = entry) _) fun _ m h => ?_
    subst h
    refine ends_bind (ld.ends_forM_push args.reverse) fun _ m₁ ld₁ => ?_
    rw [List.length_reverse, Nat.zero_add] at ld₁
    refine ends_bind (((yields_allocInt Heap.reliance_arbitrary ld₁.standard.reliable).still
      (onlyHeap_alloc _)).imp (fun _ _ => id) fun _ _ h => (ld₁.still h.2).toKept)
      fun count m₂ h₂ => ?_
    have ld₂ := ld₁.still h₂.1
    refine ends_bind (ld₂.ends_push count) fun _ m₃ h₃ => (h₃.1.ends_push closure).imp
      (fun _ m₄ h₄ => ⟨_, h₄.1, fun argc h => ?_⟩) fun _ _ => id
    obtain ⟨⟨i, hi, ha⟩, _⟩ := h
    have hdepth := h₄.1.depth
    have hdepth₂ := ld₂.depth
    rw [OperandStack.depth] at hdepth₂
    have hcount : m₄.value (m₄.stack.slots.getD (m₄.stack.depth - 2) 0)
        = .int (Int16.ofNat args.length) := by
      have hslot : m₄.stack.slots.getD (m₄.stack.depth - 2) 0 = count := by
        rw [hdepth, h₄.2.2, h₃.2.2, Array.getD_eq_getD_getElem?, Array.getElem?_push,
          Array.getElem?_push, Array.size_push]
        rw [if_neg (by omega), if_pos (by omega)]
        rfl
      rw [hslot, value, h₄.2.1, h₃.2.1]
      exact h₂.2.2
    rw [hcount, Value.int.injEq] at hi
    subst hi
    have := eq_of_toInt_ofNat (by omega) ha
    omega

theorem upholds_forM_push [Lasting I] : ∀ l : List Ref, Upholds I (l.forM push : Action F Unit)
  | [] => upholds_pure _
  | r :: l => (upholds_push r).bind fun _ => upholds_forM_push l

theorem upholds_pushOperands [Lasting I] (closure : Ref) (args : List Ref) :
    Upholds I (pushOperands closure args : Action F Unit) :=
  upholds_get_bind fun _ => (upholds_require _ _).bind fun _ => (upholds_forM_push _).bind
    fun _ => (upholds_alloc _).bind fun count => (upholds_push count).bind
      fun _ => upholds_push closure

/-! ### Running a call -/

section Run

variable [HostFunctions F] {collect : Action F Unit} {call : Caller F} {depth n : Nat}

/-- `runFrames` with another action in the place of the collections. -/
def runFramesWith (collect : Action F Unit) (call : Caller F) (depth : Nat) : Nat → Action F Unit
  | 0 => throw .outOfFuel
  | n + 1 => fun m =>
    if m.frameDepth ≤ depth then .ok () m
    else
      match (do collect; execute (runHost call)) m with
      | .error e m => .error e m
      | .ok _ m =>
        if m.state = .ready then runFramesWith collect call depth n m
        else .error (.fault .badReturn) m

theorem runFramesWith_collectGarbage (call : Caller F) (depth : Nat) :
    ∀ n, runFramesWith collectGarbage call depth n = runFrames call depth n
  | 0 => rfl
  | n + 1 => by
    funext m
    rw [runFrames, ← runFramesWith_collectGarbage call depth n]
    rfl

theorem runFramesWith_of_lt (hd : depth < m.frameDepth) :
    runFramesWith collect call depth (n + 1) m =
    match (do collect; execute (runHost call) : Action F Unit) m with
    | .error e m => .error e m
    | .ok _ m =>
      if m.state = .ready then runFramesWith collect call depth n m
      else .error (.fault .badReturn) m :=
  if_neg (Nat.not_le.2 hd)

variable [Lasting I] (hcollect : Upholds I collect)
  (hcall : ∀ closure args, Upholds I (call closure args))

include hcollect hcall

/-- One instruction, after a collection. -/
theorem Regime.ends_instruction {K L : Machine F → Prop} (rg : Regime I K L) (hm : K m) :
    Ends (do collect; execute (runHost call)) m (fun _ m' => L m') fun _ m' => L m' :=
  ends_bind (rg.ends_upholds hcollect hm) fun _ _ hm₁ =>
    rg.ends_execute (finishes_runHost hcall) hm₁

/-- Instructions are executed until the call has returned. -/
theorem Progress.ends_runFrames (n : Nat) (pr : Progress entry m) (hi : I m) :
    Ends (runFramesWith collect call entry.frameDepth n) m
      (fun _ m' => Returned entry.stack.depth entry m' ∧ I m')
      fun _ m' => Kept entry.stack.depth entry m' ∧ I m' := by
  induction n generalizing m with
  | zero => exact ends_throw ⟨pr.kept, hi⟩
  | succ n ih =>
    rcases pr with ⟨c, sites, ic⟩ | re
    · have hdepth := ic.frameDepth
      have hstep := (regime_inCall I entry).ends_instruction hcollect hcall ⟨⟨c, sites, ic⟩, hi⟩
      rw [ends_iff, runFramesWith_of_lt (by omega)]
      cases hs : (do collect; execute (runHost call) : Action F Unit) m with
      | error e m₁ =>
        obtain ⟨pr₁, hi₁⟩ := hstep.of_error hs
        exact ⟨pr₁.kept, hi₁⟩
      | ok u m₁ =>
        obtain ⟨pr₁, hi₁⟩ := hstep.of_ok hs
        by_cases hready : m₁.state = .ready
        · simp only [hready, if_true]
          exact ends_iff.1 (ih pr₁ hi₁)
        · simp only [hready, if_false]
          exact ⟨pr₁.kept, hi₁⟩
    · have hdone : runFramesWith collect call entry.frameDepth (n + 1) m = .ok () m :=
        if_pos re.frameDepth.le
      rw [ends_iff, hdone]
      exact ⟨re, hi⟩

end Run

/-! ### Calls from host code -/

/-- All registers are the same. -/
structure Neutral (m m' : Machine F) : Prop extends Within m m' where
  /-- The stack is the same, with its depth and its floor. -/
  stack : m'.stack = m.stack
  /-- The program counter is the same, -/
  pc : m'.pc = m.pc
  /-- and what the machine is doing. -/
  state : m'.state = m.state

theorem Neutral.refl (hm : m.Standard) : Neutral m m := ⟨.refl hm, rfl, rfl, rfl⟩

theorem Kept.of_state {d : Nat} {state : RunState} (kp : Kept d { m with state } m') :
    Kept d m m' :=
  ⟨⟨kp.standard, kp.capacity, kp.slots⟩, kp.stays⟩

theorem Returned.of_state {d : Nat} {state : RunState} (re : Returned d { m with state } m') :
    Returned d m m' :=
  ⟨re.toKept.of_state, re.depth, re.base, re.locals, re.pc, re.frameDepth⟩

/-- A stack with the lowest entries of one that agrees with that of `m` is the stack of `m`. -/
theorem Agrees.stack_eq (ag : Agrees m.stack.depth m m') {s : OperandStack}
    (depth : s.depth = m.stack.depth) (base : s.base = m.stack.base)
    (capacity : s.capacity = m'.stack.capacity)
    (slots : ∀ i < m.stack.depth, s.slots[i]? = m'.stack.slots[i]?) : s = m.stack := by
  have hslots : s.slots = m.stack.slots := by
    refine Array.ext depth fun i hi hi' => Option.some.inj ?_
    rw [← Array.getElem?_eq_getElem hi, ← Array.getElem?_eq_getElem hi', slots i hi',
      ag.slots i hi']
  obtain ⟨slots', capacity', base'⟩ := s
  have hcapacity := ag.capacity
  obtain ⟨⟩ : slots' = m.stack.slots := hslots
  obtain ⟨⟩ : base' = m.stack.base := base
  obtain ⟨⟩ : capacity' = m.stack.capacity := capacity.trans hcapacity
  rfl

/-- The result of a call is taken off the stack, and the stack is that of the caller. -/
theorem Returned.ends_pop (re : Returned entry.stack.depth entry m)
    (floor : entry.stack.base ≤ entry.stack.depth) {E : Halt → Machine F → Prop} :
    Ends pop m (fun _ m' => m' = { m with stack := entry.stack }) E := by
  have hdepth := re.depth
  have hbase := re.base
  have hstack : { m.stack with slots := m.stack.slots.pop } = entry.stack := by
    refine re.stack_eq ?_ re.base rfl fun i hi => ?_
    · rw [OperandStack.depth, Array.size_pop]
      rw [OperandStack.depth] at hdepth
      omega
    · rw [OperandStack.depth] at hdepth
      exact Array.getElem?_pop.trans (if_pos (by omega))
  rw [ends_iff, pop, OperandStack.pop, if_neg (by omega)]
  exact congrArg (fun s => { m with stack := s }) hstack

/-- A machine with the registers of `entry`, and all that they refer to is still there. -/
theorem Kept.neutral (hm : entry.Standard) (kp : Kept entry.stack.depth entry m) {pc : UInt16}
    {locals : Ref} {frameDepth : Nat} (hpc : pc = entry.pc) (hlocals : locals = entry.locals)
    (hdepth : frameDepth = entry.frameDepth) :
    Neutral entry { m with
      stack := entry.stack, pc, locals, frameDepth, state := entry.state } where
  standard := ⟨⟨kp.standard.wellFormed, kp.standard.tidy, hm.floor, hm.ceiling⟩, hm.capacity,
    kp.standard.functions⟩
  capacity := rfl
  slots _ _ := rfl
  stays r hr := kp.stays r (hr.imp_left fun h => h.mono hm.floor)
  base := rfl
  locals := hlocals
  frameDepth := hdepth
  stack := rfl
  pc := hpc
  state := rfl

/-- The registers of a call that failed are restored. -/
theorem Kept.neutral_restore (hm : entry.Standard) (kp : Kept entry.stack.depth entry m) :
    Neutral entry { restore entry m with state := entry.state } := by
  have hdepth := OperandStack.depth_truncate (kp.depth_le le_rfl)
  have hstack : (m.stack.truncate entry.stack.depth).setBase entry.stack.base = entry.stack := by
    refine kp.stack_eq hdepth ?_ rfl fun i hi => OperandStack.getElem?_truncate hi
    rw [OperandStack.setBase, hdepth]
    exact Nat.min_eq_left hm.floor
  rw [restore, hstack]
  exact kp.neutral hm rfl rfl rfl

/-- `callClosure` with another action in the place of the collections. -/
def callWith [HostFunctions F] (collect : Action F Unit) : Nat → Caller F
  | 0, _, _ => throw .outOfFuel
  | n + 1, closure, args => guarded do
    let depth := (← get).frameDepth
    pushOperands closure args
    call (runHost (callWith collect n))
    runFramesWith collect (callWith collect n) depth n
    pop

theorem callWith_collectGarbage [HostFunctions F] :
    ∀ n, callWith collectGarbage n = (callClosure n : Caller F)
  | 0 => rfl
  | n + 1 => by
    funext closure args
    rw [callWith, callClosure, callWith_collectGarbage n]
    simp only [runFramesWith_collectGarbage]

/-- With the operands of a call on the stack, the call is made. -/
theorem Loaded.ends_call [HostFunctions F] [Lasting I] {k : Nat} (ld : Loaded k entry m)
    (hdepth : ∀ argc, m.Operands argc → m.stack.depth - argc - 2 = entry.stack.depth) (hi : I m)
    {call : Caller F} (hcall : ∀ closure args, Upholds I (call closure args)) :
    Ends (Machine.call (runHost call)) m (fun _ m' => Progress entry m' ∧ I m')
      fun _ m' => Kept entry.stack.depth entry m' ∧ I m' := by
  have afterCall : ∀ {m'}, (∃ argc, m.Operands argc
      ∧ (Opened (m.stack.depth - argc - 2) m m' ∨ Returned (m.stack.depth - argc - 2) m m')) →
      Progress entry m' := by
    rintro m' ⟨argc, hargs, h⟩
    rw [hdepth argc hargs] at h
    rcases h with op | re
    · exact .inl ⟨_, _, (ld.opened op).inCall⟩
    · exact .inr (ld.returned re)
  refine (Machine.ends_call ld.standard hi (finishes_runHost hcall)).imp
    (fun _ _ h => ⟨afterCall h.1, h.2⟩) fun _ m' h => ⟨?_, h.2⟩
  rcases h.1 with st | h
  · exact (ld.still st).toKept
  · exact (afterCall h).kept

/-- A call from host code, without the registers being saved and restored. -/
theorem ends_callBody [HostFunctions F] [Lasting I] {collect : Action F Unit}
    (hcollect : Upholds I collect) (hm : entry.Standard) (hi : I entry) {call : Caller F}
    (hcall : ∀ closure args, Upholds I (call closure args)) (n : Nat) (closure : Ref)
    (args : List Ref) :
    Ends (do
        let depth := (← get).frameDepth
        pushOperands closure args
        Machine.call (runHost call)
        runFramesWith collect call depth n
        pop) entry
      (fun _ m' => ∃ m, (Returned entry.stack.depth entry m ∧ I m)
        ∧ m' = { m with stack := entry.stack })
      fun _ m' => Kept entry.stack.depth entry m' ∧ I m' := by
  have operands := (ends_pushOperands hm closure args).and (upholds_pushOperands closure args entry
    hm hi)
  refine ends_get_bind (ends_bind (operands.imp (fun _ _ => id) fun _ _ h => ⟨h.1, h.2.2⟩)
    fun _ m₁ h₁ => ?_)
  obtain ⟨⟨k, ld, hdepth⟩, -, hi₁⟩ := h₁
  exact ends_bind (ld.ends_call hdepth hi₁ hcall) fun _ m₂ h₂ =>
    ends_bind (Progress.ends_runFrames hcollect hcall n h₂.1 h₂.2) fun _ m₃ re =>
      (re.1.ends_pop hm.floor).imp (fun _ _ h => ⟨m₃, re, h⟩) fun _ _ => id

theorem ends_guarded {x : Action F Ref} {Q : Ref → Machine F → Prop} {E : Halt → Machine F → Prop}
    (hx : Ends x { m with state := .ready } Q E) : Ends (guarded x) m
      (fun r m' => ∃ m'', Q r m'' ∧ m' = { m'' with state := m.state })
      fun e m' => ∃ m'', E e m'' ∧ m' = { restore m m'' with state := m.state } := by
  rw [ends_iff, guarded]
  cases hs : x { m with state := .ready } with
  | ok r m'' => exact ⟨m'', hx.of_ok hs, rfl⟩
  | error e m'' => exact ⟨m'', hx.of_error hs, rfl⟩

/-- Calls from host code, nested to any depth. -/
theorem ends_callWith [HostFunctions F] [Lasting I] {collect : Action F Unit}
    (hcollect : Upholds I collect) (n : Nat) (closure : Ref) (args : List Ref) (hm : m.Standard)
    (hi : I m) : Ends (callWith collect n closure args) m (fun _ m' => Neutral m m' ∧ I m')
      fun _ m' => Neutral m m' ∧ I m' := by
  induction n generalizing m closure args with
  | zero => exact ends_throw ⟨.refl hm, hi⟩
  | succ n ih =>
    have hcall : ∀ closure args, Upholds I (callWith collect n closure args) := by
      intro closure args m hm hi
      exact (ih closure args hm hi).imp (fun _ _ h => ⟨h.1.toWithin, h.2⟩)
        fun _ _ h => ⟨h.1.toWithin, h.2⟩
    have hm₀ : Standard { m with state := .ready } :=
      ⟨⟨hm.wellFormed, hm.tidy, hm.floor, hm.ceiling⟩, hm.capacity, hm.functions⟩
    have hi₀ : I { m with state := .ready } := Lasting.congr hi rfl rfl rfl rfl rfl
    refine (ends_guarded (ends_callBody hcollect hm₀ hi₀ hcall n closure args)).imp
      (fun _ m' h => ?_) fun _ m' h => ?_
    · obtain ⟨_, ⟨m'', ⟨re, hi''⟩, rfl⟩, rfl⟩ := h
      have neutral := re.of_state.toKept.neutral hm re.pc re.locals re.frameDepth
      exact ⟨neutral, Lasting.congr hi'' rfl rfl rfl rfl rfl⟩
    · obtain ⟨m'', ⟨kp, hi''⟩, rfl⟩ := h
      exact ⟨kp.of_state.neutral_restore hm, Lasting.congr hi'' rfl rfl rfl rfl rfl⟩

theorem upholds_callWith [HostFunctions F] [Lasting I] {collect : Action F Unit}
    (hcollect : Upholds I collect) (n : Nat) (closure : Ref) (args : List Ref) :
    Upholds I (callWith collect n closure args) := by
  intro m hm hi
  exact (ends_callWith hcollect n closure args hm hi).imp (fun _ _ h => ⟨h.1.toWithin, h.2⟩)
    fun _ _ h => ⟨h.1.toWithin, h.2⟩

theorem upholds_callClosure [HostFunctions F] [Lasting I]
    (hcollect : Upholds I (collectGarbage : Action F Unit)) (n : Nat) (closure : Ref)
    (args : List Ref) : Upholds I (callClosure n closure args : Action F Ref) := by
  rw [← callWith_collectGarbage]
  exact upholds_callWith hcollect n closure args

theorem ends_callClosure [HostFunctions F] (n : Nat) (closure : Ref) (args : List Ref)
    (hm : m.Standard) : Ends (callClosure n closure args) m (fun _ m' => Neutral m m')
      fun _ m' => Neutral m m' := by
  rw [← callWith_collectGarbage]
  exact (ends_callWith confined_collectGarbage.upholds_true n closure args hm trivial).imp
    (fun _ _ h => h.1) fun _ _ h => h.1

theorem confined_callClosure [HostFunctions F] (n : Nat) (closure : Ref) (args : List Ref) :
    Confined (callClosure n closure args : Action F Ref) := by
  intro m hm
  exact (ends_callClosure n closure args hm).imp (fun _ _ h => h.toWithin) fun _ _ h => h.toWithin

/-- **Calls from host code leave the registers alone.** From a sound machine, as any is that host
code can reach (`Lifetime`), whose stack depths fit in sixteen bits and whose host functions are all
standard ones, a call of any closure with any arguments leaves the stack with its depth and its
floor, the program counter, the activation record, the number of open calls and the state as they
were, whether it answers or fails. -/
theorem neutral_callClosure [HostFunctions F] (hm : m.Sound) (capacity : m.stack.capacity ≤ 65535)
    (functions : m.functions = #[]) (n : Nat) (closure : Ref) (args : List Ref) (m' : Machine F)
    (hr : (∃ r, callClosure n closure args m = .ok r m')
      ∨ ∃ e, callClosure n closure args m = .error e m') :
    m'.stack = m.stack ∧ m'.pc = m.pc ∧ m'.locals = m.locals ∧ m'.frameDepth = m.frameDepth
      ∧ m'.state = m.state := by
  have hends := ends_callClosure n closure args ⟨hm, capacity, functions⟩
  have neutral : Neutral m m' := by
    rcases hr with ⟨r, hr⟩ | ⟨e, hr⟩
    · exact hends.of_ok hr
    · exact hends.of_error hr
  exact ⟨neutral.stack, neutral.pc, neutral.locals, neutral.frameDepth, neutral.state⟩

/-- The heap of a small machine, with a closure of a host function in it. -/
def closureHeap : Heap :=
  Heap.Request.perform smallHeap
    (.allocValue (.closure (.ofHost Primitive.stigmergySize.functionId)))

/-- A machine whose script has ended, with an object on its stack. -/
def finished : Machine Empty :=
  { blank { heapSize := 192 } 0 1 2 3 closureHeap with
    stack := { slots := #[2], capacity := 96 }, pc := 7, state := .done }

theorem neutral_finished : finished.Sound ∧ finished.stack.capacity ≤ 65535
    ∧ finished.functions = #[] ∧ ∃ m', callClosure 2 4 [] finished = .ok 9 m'
      ∧ m'.stack = finished.stack ∧ m'.pc = finished.pc ∧ m'.locals = finished.locals
      ∧ m'.frameDepth = finished.frameDepth ∧ m'.state = finished.state := by
  have hl : smallHeap.Supports [3, 2, 1, 0] :=
    (ends_coreObjects (by decide)).of_ok coreObjects_small
  have wf : closureHeap.WellFormed ∧ closureHeap.Tidy :=
    Heap.Request.wellFormed_perform hl.wellFormed hl.tidy fun _ => by simp
  have hs : finished.Sound := sound_blank wf.1 wf.2 (by decide) (by decide)
  have hanswer : (match callClosure 2 4 [] finished with
      | .ok r _ => decide (r = 9)
      | .error _ _ => false) = true := by
    rw [finished, closureHeap, smallHeap_eq]
    decide +kernel
  refine ⟨hs, by decide, rfl, ?_⟩
  cases hc : callClosure 2 4 [] finished with
  | error e m' => rw [hc] at hanswer; cases hanswer
  | ok r m' =>
    rw [hc] at hanswer
    have hneutral := neutral_callClosure hs (by decide) rfl 2 4 [] m' (.inl ⟨r, hc⟩)
    exact ⟨m', by rw [of_decide_eq_true hanswer], hneutral⟩

end Machine

end SwarmVm
