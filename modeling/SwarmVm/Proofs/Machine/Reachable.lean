import SwarmVm.Proofs.Machine.Records

/-!
# Machines that can be reached

`Lifetime` looks at a machine between two requests of host code. Here it is looked at inside a
request as well: between two instructions of a call that host code has made, and where a host
function calls back, to any depth.

A machine that can be reached is anchored. Either no call is open, or the open calls have their
bookkeeping on the stack, one above the other; and the default record holds nil and nothing else,
because no call has it for its locals. A new machine does have it, but it has no script to run. It
is from then on that the locals of the lowest caller matter: while the machine is at rest they are
others, so that the script can go on, and inside a call from host code they may be anything.

## Main definitions

* `Machine.Anchored` — machines whose calls are on the stack and whose default record is in place
* `Machine.Resting` — machines between two requests
* `Machine.Reachable` — machines between two instructions

## Main results

* `Machine.resting_make` — new machines are at rest
* `Machine.Reachable.anchored` — machines that can be reached are anchored
-/

namespace SwarmVm

namespace Machine

open Heap (reliance_arbitrary)

variable {F α β : Type} {entry m m' : Machine F} {d : Ref} {B : Ref → Prop} {R : α → Prop}

/-! ### The default record of a new machine -/

/-- The array `d` is the default record, it is apart, and holds nil. -/
structure Pristine (d : Ref) (m : Machine F) : Prop extends Apart d m where
  /-- It is the default record. -/
  record : m.defaultRecord = d
  /-- It holds nil and nothing else. -/
  elements : m.heap.arrayElements d = [m.nil]

theorem Pristine.safe (hd : Pristine d m) : Safe d m := ⟨hd.toApart, hd.record⟩

theorem Spared.pristine (sp : Spared d m m') (hd : Pristine d m) : Pristine d m' :=
  ⟨sp.apart, sp.core.record.trans hd.record,
    sp.elements.trans (hd.elements.trans (by rw [sp.core.nil]))⟩

theorem Pristine.of_heap (hd : Pristine d m) (same : SameCore m m') (heap : m'.heap = m.heap) :
    Pristine d m' := (hd.toApart.spared_of_heap same heap).pristine hd

theorem holds_keep {h : Heap} {record r : Ref} {l : List Ref} {E : OutOfMemory → Heap → Prop}
    (wf : h.WellFormed) (hl : h.Holds record l) :
    Ends (keep r) h (fun r' h' => r' = r ∧ h'.WellFormed ∧ h'.Holds record l) E :=
  ends_bind (ends_modify (Q := fun _ h' => h'.WellFormed ∧ h'.Holds record l)
    ⟨(Heap.grows_setPermanent wf r true).wellFormed, hl.setPermanent wf r true⟩)
    fun _ _ h => ends_pure ⟨rfl, h⟩

/-- A table that is made after the record is another one. -/
theorem holds_tableNew {h : Heap} {record : Ref} {l : List Ref} (wf : h.WellFormed)
    (hl : h.Holds record l) : Ends Heap.tableNew h
      (fun t h' => t ≠ record ∧ h'.WellFormed ∧ h'.Holds record l) fun _ _ => True := by
  refine ((Heap.spares_allocTable wf).and (Heap.newObject_allocTable (A := Set.univ) wf)).imp
    (fun t h' hn => ?_) fun _ _ _ => trivial
  obtain ⟨sp, n, -⟩ := hn
  exact ⟨ne_of_free hl.isValid n.free, n.evolves.wellFormed,
    hl.unaltered (sp.unaltered hl.isValid)⟩

/-- The default record is made with nil in it, before the globals and the listeners. -/
theorem holds_coreObjects {size : Nat} (accepted : Heap.refusal? size = none) :
    Ends coreObjects (Heap.make size)
      (fun p h => h.Holds p.2.1 [p.1] ∧ p.2.2.1 ≠ p.2.1 ∧ p.2.2.2 ≠ p.2.1) fun _ _ => True := by
  obtain ⟨wf₀, -⟩ := Heap.wellFormed_make accepted
  refine ends_bind ((Heap.grows_allocValue (v := .nil) wf₀ (by simp)).imp (fun _ _ => id)
    fun _ _ _ => trivial) fun nil h₁ hn => ?_
  obtain ⟨g, hv, -⟩ := hn
  have kept : Ends (keep nil) h₁ (fun r h => r = nil ∧ h.WellFormed ∧ h.isValid nil = true)
      fun _ _ => True := by
    have g' := Heap.grows_setPermanent g.wellFormed nil true
    exact ends_bind (ends_modify (Q := fun _ h => h.WellFormed ∧ h.isValid nil = true)
      ⟨g'.wellFormed, (g'.spares.unaltered hv).isValid⟩) fun _ _ h => ends_pure ⟨rfl, h⟩
  refine ends_bind kept fun _ h₂ h => ?_
  obtain ⟨rfl, wf₂, hv₂⟩ := h
  refine ends_bind (((Heap.holds_arrayNew wf₂).and (Heap.newObject_arrayNew (A := Set.univ)
    wf₂)).imp (fun _ _ => id) fun _ _ _ => trivial) fun record h₃ h => ?_
  obtain ⟨hl₃, n, -⟩ := h
  have wf₃ := n.evolves.wellFormed
  have hnil := Heap.slotRef_of_isValid wf₃.layout (n.evolves.isValid _ (Set.notMem_empty _) hv₂)
  refine ends_bind (((Heap.holds_arrayPush wf₃ hl₃ _).and (Heap.evolves_arrayPush (A := Set.univ)
    wf₃ (fun _ => hl₃.isValid) (Set.mem_univ _))).imp (fun _ _ => id) fun _ _ _ => trivial)
    fun _ h₄ h => ?_
  obtain ⟨hl₄, ev⟩ := h
  rw [List.nil_append, hnil] at hl₄
  refine ends_bind (holds_keep ev.wellFormed hl₄) fun _ h₅ h => ?_
  obtain ⟨rfl, wf₅, hl₅⟩ := h
  refine ends_bind (holds_tableNew wf₅ hl₅) fun globals h₆ h => ?_
  obtain ⟨hglobals, wf₆, hl₆⟩ := h
  refine ends_bind (holds_keep wf₆ hl₆) fun _ h₇ h => ?_
  obtain ⟨rfl, wf₇, hl₇⟩ := h
  refine ends_bind (holds_tableNew wf₇ hl₇) fun listeners h₈ h => ?_
  obtain ⟨hlisteners, wf₈, hl₈⟩ := h
  refine ends_bind (holds_keep wf₈ hl₈) fun _ h₉ h => ?_
  obtain ⟨rfl, -, hl₉⟩ := h
  exact ends_pure ⟨hl₉, hglobals, hlisteners⟩

section Blank

variable {s : Settings} {nil record globals listeners : Ref} {heap : Heap}
  (accepted : Heap.refusal? s.heapSize = none)
  (hc : coreObjects (Heap.make s.heapSize) = .ok (nil, record, globals, listeners) heap)

include accepted hc

theorem pristine_blank :
    Pristine record (blank s nil record globals listeners heap : Machine F) := by
  have whole := ((ends_coreObjects accepted).of_ok hc).whole
  obtain ⟨holds, hglobals, hlisteners⟩ := (holds_coreObjects accepted).of_ok hc
  refine ⟨⟨⟨holds.isValid, holds.isArray⟩, hglobals, hlisteners, ?_, trivial, fun hw => hw.elim⟩,
    rfl, holds.arrayElements⟩
  rintro t (rfl | rfl)
  · exact (whole _ (by simp)).isValid
  · exact (whole _ (by simp)).isValid

theorem idle_blank (hs : s.stackSize ≤ 65535) :
    (blank s nil record globals listeners heap : Machine F).Idle := by
  have hl := (ends_coreObjects accepted).of_ok hc
  exact (new_blank hs hl.wellFormed hl.tidy nil record globals listeners).toIdle

end Blank

/-! ### Anchored machines -/

/-- No call is open, or the open calls form a chain of callers; `B` holds of the locals of the
lowest one. The default record `d` is in place. -/
inductive Anchored (d : Ref) (B : Ref → Prop) : Machine F → Prop
  /-- No call is open. -/
  | idle {m : Machine F} (pristine : Pristine d m) (standing : m.Idle) (bottom : B m.locals) :
    Anchored d B m
  /-- There is a chain of callers, down to a machine without open calls. -/
  | inCall {entry m : Machine F} {c : Site} {sites : List Site} (pristine : Pristine d entry)
    (frameDepth : entry.frameDepth = 0) (bottom : B entry.locals)
    (chain : InRecord d entry c sites m) : Anchored d B m

namespace Anchored

theorem pristine (hm : Anchored d B m) : Pristine d m := by
  cases hm with
  | idle pristine => exact pristine
  | inCall pristine _ _ chain => exact chain.spared.pristine pristine

theorem standard (hm : Anchored d B m) : m.Standard := by
  cases hm with
  | idle _ standing => exact standing.toStandard
  | inCall _ _ _ chain => exact chain.standard

theorem within (hm : Anchored d B m) (w : Within m m') (sp : Spared d m m') : Anchored d B m' := by
  cases hm with
  | idle pristine standing bottom =>
    exact .idle (sp.pristine pristine) (standing.within w) (w.locals ▸ bottom)
  | inCall pristine frameDepth bottom chain =>
    exact .inCall pristine frameDepth bottom (chain.within w sp)

theorem mono {B' : Ref → Prop} (hm : Anchored d B m) (hB : ∀ r, B r → B' r) :
    Anchored d B' m := by
  cases hm with
  | idle pristine standing bottom => exact .idle pristine standing (hB _ bottom)
  | inCall pristine frameDepth bottom chain =>
    exact .inCall pristine frameDepth (hB _ bottom) chain

/-- Inside a call the locals are its own. -/
theorem locals_of_open (hm : Anchored d B m) (hopen : 0 < m.frameDepth) : m.locals ≠ d := by
  cases hm with
  | idle _ standing =>
    rw [standing.frameDepth] at hopen
    cases hopen
  | inCall _ _ _ chain => exact chain.locals

/-- They are others all the way up if they are at the bottom. -/
theorem locals (hm : Anchored d (· ≠ d) m) : m.locals ≠ d := by
  cases hm with
  | idle _ _ bottom => exact bottom
  | inCall _ _ _ chain => exact chain.locals

/-- A call from a machine without open calls may still be going on. -/
theorem of_proceeds (frameDepth : entry.frameDepth = 0) (bottom : B entry.locals)
    (pristine : Pristine d entry) (pr : Proceeds d entry m) : Anchored d B m := by
  rcases pr with ⟨c, sites, chain⟩ | ⟨re, sp⟩
  · exact .inCall pristine frameDepth bottom chain
  · exact .idle (sp.pristine pristine) ⟨re.standard, re.frameDepth.trans frameDepth⟩
      (re.locals ▸ bottom)

theorem atSite (hm : Anchored d B m) : m.AtSite := by
  cases hm with
  | idle _ standing => exact .inl standing.frameDepth
  | inCall _ _ _ chain => exact chain.atSite

/-- A call is opened from a machine without open calls, or by the last caller of the chain. -/
theorem opened {depth : Nat} (hm : Anchored d B m) (op : Opened depth m m')
    (floor : m.stack.base ≤ depth) (top : depth ≤ m.stack.depth) (sp : Spared d m m')
    (locals : m'.locals ≠ d) : Anchored d B m' := by
  cases hm with
  | inCall pristine frameDepth bottom chain =>
    exact .inCall pristine frameDepth bottom (chain.opened op floor sp locals)
  | idle pristine standing bottom =>
    have ld := loaded_truncate standing.toStandard floor top
    rw [← OperandStack.depth_truncate top] at op
    have hp : Pristine d { m with stack := m.stack.truncate depth } :=
      pristine.of_heap ⟨rfl, rfl, rfl, rfl⟩ rfl
    refine .inCall hp standing.frameDepth bottom ⟨(ld.opened op).inCall, pristine.record,
      ⟨sp.apart, sp.elements, sp.core.nil, sp.core.record, sp.core.globals, sp.core.listeners⟩,
      locals, fun c' hc' => ?_⟩
    cases hc'

/-- Instructions, where the locals are not the default record. -/
theorem strides (hm : Anchored d B m) (hl : m.locals ≠ d) (st : Strides d m m') :
    Anchored d B m' := by
  cases st with
  | within wi minded => exact hm.within wi (minded.spared hl)
  | opened wi before op floor top spared locals _ =>
    exact (hm.within wi before).opened op floor top spared locals
  | resumed re frameDepth minded =>
    cases hm with
    | idle _ standing =>
      rw [standing.frameDepth] at frameDepth
      omega
    | inCall pristine zero bottom chain =>
      exact of_proceeds zero bottom pristine (chain.strides (.resumed re frameDepth minded))

/-- Actions that leave the default record alone. -/
theorem ends_shelters {x : Action F α} (hm : Anchored d B m) (hx : Shelters d x R) :
    Ends x m (fun _ m' => Anchored d B m') fun _ m' => Anchored d B m' :=
  (hx.confined hm.standard hm.pristine.safe).imp (fun _ _ h => hm.within h.1 h.2)
    fun _ _ h => hm.within h.1 h.2

/-- Actions that do what an instruction can do. -/
theorem ends_performs {x : Action F Unit} (hm : Anchored d B m) (hl : m.locals ≠ d)
    (hx : Performs d x) :
    Ends x m (fun _ m' => Anchored d B m') fun _ m' => Anchored d B m' :=
  (hx m hm.standard hm.atSite hm.pristine.safe).imp (fun _ _ => hm.strides hl)
    fun _ _ => hm.strides hl

end Anchored

/-! ### Machines at rest -/

/-- The machine is anchored and the locals of the lowest caller are not the default record, or it
has no script and no call is open. -/
inductive Rested (d : Ref) : Machine F → Prop
  /-- There is no script. -/
  | blank {m : Machine F} (pristine : Pristine d m) (standing : m.Idle)
    (state : m.state = .noCode) : Rested d m
  /-- There is one, and it can go on. -/
  | anchored {m : Machine F} (chain : Anchored d (· ≠ d) m) : Rested d m

namespace Rested

theorem anchored_of_state (hm : Rested d m) (hs : m.state ≠ .noCode) : Anchored d (· ≠ d) m := by
  cases hm with
  | blank _ _ state => exact absurd state hs
  | anchored chain => exact chain

theorem anyLocals (hm : Rested d m) : Anchored d (fun _ => True) m := by
  cases hm with
  | blank pristine standing => exact .idle pristine standing trivial
  | anchored chain => exact chain.mono fun _ _ => trivial

theorem within (hm : Rested d m) (w : Within m m') (sp : Spared d m m')
    (state : m'.state = m.state) : Rested d m' := by
  cases hm with
  | blank pristine standing state' =>
    exact .blank (sp.pristine pristine) (standing.within w) (state.trans state')
  | anchored chain => exact .anchored (chain.within w sp)

end Rested

/-- From whatever machine at rest the action starts, it leaves one at rest, whether it answers or
fails. -/
def Rests (d : Ref) (x : Action F α) : Prop := ∀ m, Rested d m →
  Ends x m (fun _ m' => Rested d m') fun _ m' => Rested d m'

theorem Rests.bind {x : Action F α} {f : α → Action F β} (hx : Rests d x)
    (hf : ∀ a, Rests d (f a)) : Rests d (x >>= f) :=
  fun m hm => ends_bind (hx m hm) fun a m' hm' => hf a m' hm'

theorem rests_get_bind {f : Machine F → Action F β} (hf : ∀ m, Rests d (f m)) :
    Rests d (get >>= f) := fun m hm => ends_get_bind (hf m m hm)

theorem Shelters.rests {x : Action F α} (hx : Shelters d x R) (hs : Leads SameState x) :
    Rests d x := by
  intro m hm
  exact ((hx.confined hm.anyLocals.standard hm.anyLocals.pristine.safe).and (hs m)).imp
    (fun _ _ h => hm.within h.1.1 h.1.2 h.2) fun _ _ h => hm.within h.1.1 h.1.2 h.2

theorem rests_pure (a : α) : Rests d (pure a : Action F α) := fun _ hm => ends_pure hm

theorem Shelters.rests_discard {x : Action F α} (hx : Shelters d x R) (hs : Leads SameState x) :
    Rests d (do let _ ← x) := (hx.rests hs).bind fun _ => rests_pure _

/-- Whatever is started only where there is a script. -/
theorem Shelters.ends_rested {x : Action F α} (hx : Shelters d x R) (hm : Rested d m)
    (hs : m.state ≠ .noCode) : Ends x m (fun _ m' => Rested d m') fun _ m' => Rested d m' :=
  ((hm.anchored_of_state hs).ends_shelters hx).imp (fun _ _ => .anchored) fun _ _ => .anchored

theorem rests_leaveFrame (result : Option Ref) : Rests d (leaveFrame result : Action F Unit) := by
  intro m hm
  cases hm with
  | blank pristine standing state =>
    refine (ends_leaveFrame_idle standing.frameDepth result).imp (fun _ _ h => h.elim)
      fun _ _ h => ?_
    rw [h]
    exact .blank pristine standing state
  | anchored chain =>
    exact (chain.ends_performs chain.locals (performs_leaveFrame result)).imp
      (fun _ _ => .anchored) fun _ _ => .anchored

theorem rests_ret1 : Rests d (ret1 : Action F Unit) :=
  rests_get_bind fun _ => ((shelters_require _ _).rests (leads_require _ _)).bind fun _ =>
    (shelters_pop.rests leads_pop).bind fun r => rests_leaveFrame (some r)

/-! ### Running -/

section Running

variable [HostFunctions F]

/-- An instruction of a script. -/
theorem Anchored.ends_instruction {call : Caller F} (hm : Anchored d B m) (hl : m.locals ≠ d)
    (hcall : ∀ closure args, Shelters d (call closure args))
    (hnew : ∀ a closure args, Shelters (.record a) (call closure args)) :
    Ends (do collectGarbage; execute (runHost call)) m (fun _ m' => Anchored d B m')
      fun _ m' => Anchored d B m' :=
  hm.ends_performs hl (performs_instruction hcall hnew (shelters_collectGarbage trivial))

theorem Anchored.ends_step (hm : Anchored d (· ≠ d) m) (fuel : Nat) :
    Ends (step fuel) m (fun _ m' => Anchored d (· ≠ d) m')
      fun _ m' => Anchored d (· ≠ d) m' := by
  refine ends_get_bind ?_
  split
  · refine ends_bind (Q := fun _ m' => Anchored d (· ≠ d) m') ((ends_attempt (hm.ends_instruction
      hm.locals (fun closure args => shelters_callClosure fuel closure args trivial)
      fun _ closure args => shelters_callClosure fuel closure args trivial)).imp ?_ ?_)
      fun result m₁ hm₁ => ?_
    · rintro _ m' (⟨_, _, hm'⟩ | ⟨_, _, hm'⟩)
      · exact hm'
      · exact hm'
    · rintro _ m' ⟨_, hm'⟩
      exact hm'
    · cases result with
      | ok _ => exact ends_pure hm₁
      | error e =>
        exact hm₁.ends_shelters (Shelters.bind (shelters_modify fun _ => rfl)
          fun _ _ => shelters_setError e)
  · exact ends_pure hm

theorem rests_step (fuel : Nat) : Rests d (step fuel : Action F Unit) := by
  intro m hm
  by_cases hs : m.state = .noCode
  · refine ends_get_bind ?_
    rw [if_neg (by rw [hs]; simp)]
    exact ends_pure hm
  · exact ((hm.anchored_of_state hs).ends_step fuel).imp (fun _ _ => .anchored) fun _ _ => .anchored

theorem rests_run (n : Nat) : Rests d (run n : Action F Unit) := by
  intro m hm
  induction n generalizing m with
  | zero => exact ends_throw hm
  | succ n ih =>
    have hstep := rests_step n m hm
    rw [ends_iff, run]
    by_cases hready : m.state = .ready
    · simp only [hready, if_true]
      cases hs : step n m with
      | ok _ m₁ => exact ends_iff.1 (ih m₁ (hstep.of_ok hs))
      | error e m₁ => exact hstep.of_error hs
    · simp only [hready, if_false]
      exact hm

theorem Anchored.ends_prologue (n : Nat) (hm : Anchored d (· ≠ d) m) :
    Ends (prologue n) m (fun _ m' => Anchored d (· ≠ d) m')
      fun _ m' => Anchored d (· ≠ d) m' := by
  induction n generalizing m with
  | zero => exact ends_throw hm
  | succ n ih =>
    refine ends_get_bind ?_
    split
    · exact hm.ends_shelters (Shelters.bind (shelters_modify fun _ => rfl)
        fun _ _ => shelters_pure (R := fun _ => True) trivial)
    · refine ends_bind (hm.ends_step n) fun _ m₁ hm₁ => ends_get_bind ?_
      cases m₁.state with
      | error | done => exact ends_pure hm₁
      | ready | noCode => exact ih hm₁

omit [HostFunctions F] in
/-- An image is attached to a machine at rest. -/
theorem Rested.ends_attach (hm : Rested d m) (image : Image) {E : Halt → Machine F → Prop} :
    Ends (attach image) m (fun _ m' => Rested d m' ∧ m'.Idle) E := by
  have hs := hm.anyLocals.standard
  have idle : Idle { m with
      names := m.names.load image.strings, code := image.code
      log := m.log.add (.attached image.code.size image.strings.length)
      pc := 0, stack := m.stack.clear, frameDepth := 0, error := none } :=
    ⟨⟨⟨hs.wellFormed, hs.tidy, le_rfl, Nat.zero_le _⟩, hs.capacity, hs.functions⟩, rfl⟩
  refine ends_iff.2 ⟨?_, idle⟩
  cases hm with
  | blank pristine _ state => exact .blank (pristine.of_heap ⟨rfl, rfl, rfl, rfl⟩ rfl) idle state
  | anchored chain =>
    exact .anchored (.idle (chain.pristine.of_heap ⟨rfl, rfl, rfl, rfl⟩ rfl) idle chain.locals)

theorem rests_load (fuel : Nat) (bytes : List UInt8) :
    Rests d (load fuel bytes : Action F (Except ImageError Unit)) := by
  intro m hm
  rw [load]
  cases Image.parse bytes with
  | error e => exact ends_pure hm
  | ok image =>
    refine ends_bind (hm.ends_attach image) fun _ m₁ h₁ => ends_get_bind ?_
    obtain ⟨hm₁, idle₁⟩ := h₁
    have clone := (shelters_arrayClone m₁.defaultRecord m₁ idle₁.toStandard
      hm₁.anyLocals.pristine.safe).and (leads_arrayClone (R := SameState) m₁.defaultRecord m₁)
    have rested : ∀ {m₂}, Within m₁ m₂ ∧ Spared d m₁ m₂ → m₂.state = m₁.state →
        Rested d m₂ ∧ m₂.Idle := fun h hs => ⟨hm₁.within h.1 h.2 hs, idle₁.within h.1⟩
    refine ends_bind (Q := fun result m₂ => (Rested d m₂ ∧ m₂.Idle) ∧ ∀ r, result = .ok r → r ≠ d)
      ((ends_attempt clone).imp ?_ ?_) fun result m₂ h₂ => ?_
    · rintro _ m₂ (⟨r, rfl, ⟨h, hr⟩, hs⟩ | ⟨e, rfl, h, hs⟩)
      · refine ⟨rested h hs, fun r' hr' => ?_⟩
        cases hr'
        exact hr
      · exact ⟨rested h hs, fun r' hr' => by cases hr'⟩
    · rintro _ m₂ ⟨-, h, hs⟩
      exact (rested h hs).1
    obtain ⟨⟨hm₂, idle₂⟩, hr⟩ := h₂
    have pristine₂ := hm₂.anyLocals.pristine
    cases result with
    | error e => exact ends_pure hm₂
    | ok record =>
      have ready : Anchored d (· ≠ d) { m₂ with locals := record, state := .ready } :=
        .idle (pristine₂.of_heap ⟨rfl, rfl, rfl, rfl⟩ rfl)
          ⟨⟨⟨idle₂.wellFormed, idle₂.tidy, idle₂.floor, idle₂.ceiling⟩, idle₂.capacity,
            idle₂.functions⟩, idle₂.frameDepth⟩ (hr record rfl)
      refine ends_bind (ends_modify (Q := fun _ m₃ => Anchored d (· ≠ d) m₃) ready)
        fun _ m₃ hm₃ => ?_
      refine ends_bind ((hm₃.ends_prologue fuel).imp (fun _ _ => id) fun _ _ => .anchored)
        fun e m₄ hm₄ => ?_
      cases e with
      | some e => exact ends_pure (.anchored hm₄)
      | none => exact ends_pure (.anchored hm₄)

/-! ### Messages and global functions -/

theorem shelters_drainInbox (n : Nat) : Shelters d (drainInbox n : Action F Unit) := by
  induction n with
  | zero => exact shelters_throw _
  | succ n ih =>
    refine shelters_get_bind fun m _ => ?_
    obtain ⟨message?, inbox⟩ := m.inbox.pop
    cases message? with
    | none => exact shelters_pure trivial
    | some message =>
      refine Shelters.bind (shelters_modify fun _ => rfl) fun _ _ => ?_
      refine (shelters_dispatch
        (fun closure args => shelters_callClosure n closure args (by trivial))
        message).attempt.bind fun result _ => (shelters_release message).bind fun _ _ => ?_
      cases result with
      | ok _ => exact ih
      | error e => exact shelters_setError e

theorem rests_processInbox (fuel : Nat) : Rests d (processInbox fuel : Action F Unit) := by
  intro m hm
  refine ends_get_bind ?_
  cases hs : m.state with
  | ready | done => exact (shelters_drainInbox fuel).ends_rested hm (by rw [hs]; simp)
  | noCode | error => exact ends_pure hm

theorem shelters_callGlobal (fuel : Nat) (name : NameId) (args : List Ref) :
    Shelters d (callGlobal fuel name args : Action F Ref) :=
  (shelters_get_bind fun _ _ => shelters_field _ name).bind fun _ _ => shelters_get_bind
    fun _ _ => (shelters_require _ _).bind fun _ _ => shelters_callClosure _ _ _ trivial

theorem rests_functionCall (fuel : Nat) (name : NameId) (args : List Ref) :
    Rests d (functionCall fuel name args : Action F Ref) := by
  intro m hm
  refine ends_get_bind ?_
  cases hs : m.state with
  | noCode | error => exact ends_throw hm
  | ready | done =>
    refine Shelters.ends_rested (R := fun _ => True) ?_ hm (by rw [hs]; simp)
    refine (shelters_callGlobal fuel name args).attempt.bind fun result _ => ?_
    cases result with
    | ok r => exact shelters_pure trivial
    | error e =>
      exact Shelters.bind (shelters_modify fun _ => rfl) fun _ _ => (shelters_setError e).bind
        fun _ _ => shelters_fail e

/-! ### Requests -/

/-- Host code does not set fields of the default record, which it is never given. -/
def Request.Respects (m : Machine F) : Request → Prop
  | .setField t _ _ => t ≠ m.defaultRecord
  | _ => True

omit [HostFunctions F] in
theorem shelters_setGlobal {w : Ward} (name : NameId) (r : Ref) :
    Shelters w (setGlobal name r : Action F Unit) :=
  shelters_get_bind fun _ ha => shelters_setField ha.globals name r

/-- Requests that run no script and leave arrays alone. The closures that host code makes have
captured nothing. -/
def Request.isPlain : Request → Bool
  | .load _ | .step | .run | .functionCall _ _ | .callClosure _ _ | .processInbox
  | .setField _ _ _ | .ret0 | .ret1 => false
  | .alloc v => v.captured?.isNone
  | _ => true

theorem Request.shelters_perform {w : Ward} (fuel : Nat) {q : Request} (hq : q.isPlain = true) :
    Shelters w (q.perform fuel : Action F Unit) := by
  have discard : ∀ {α : Type} {x : Action F α} {R : α → Prop}, Shelters w x R →
      Shelters w (do let _ ← x) := fun hx => hx.bind fun _ _ => shelters_pure trivial
  cases q with
  | load | step | run | functionCall | callClosure | processInbox | setField | ret0 | ret1 =>
    cases hq
  | receive payload => exact shelters_receive payload
  | processOutbox => exact shelters_processOutbox
  | changeOutbox | setReceiver | pin | resetNeighbors => exact shelters_modify fun _ => rfl
  | clearError | unpin => exact shelters_modify fun _ => by split <;> rfl
  | addNeighbor s =>
    exact discard (R := fun _ => True) (shelters_get_bind fun _ _ => Shelters.bind
      (shelters_modify fun _ => rfl) fun _ _ => shelters_pure trivial)
  | alloc v => exact discard (shelters_alloc v (Option.isNone_iff_eq_none.1 hq))
  | pushTable => exact discard shelters_pushTable
  | push r => exact shelters_push r
  | pop => exact discard shelters_pop
  | field t name => exact discard (shelters_field t name)
  | global name =>
    exact discard (R := fun _ => True) (shelters_get_bind fun _ _ => shelters_field _ name)
  | setGlobal name r => exact shelters_setGlobal name r

/-- They leave the state alone, except that one of them may be to leave the error state. -/
theorem Request.sameState_of_isPlain (fuel : Nat) {q : Request} (hq : q.isPlain = true)
    (hc : q ≠ .clearError) : Leads SameState (q.perform fuel : Action F Unit) := by
  cases q with
  | load | step | run | functionCall | processInbox => cases hq
  | clearError => exact absurd rfl hc
  | receive payload => exact leads_receive payload
  | _ => exact Request.leads_of_isQuiet (leads_callClosure_sameState fuel) rfl

/-- Every request leaves a machine at rest. -/
theorem Request.ends_rested (hm : Rested d m) (fuel : Nat) (q : Request) (hq : q.Respects m) :
    Ends (q.perform fuel) m (fun _ m' => Rested d m') fun _ m' => Rested d m' := by
  have plain : q.isPlain = true → q ≠ .clearError → Ends (q.perform fuel) m
      (fun _ m' => Rested d m') fun _ m' => Rested d m' := fun hp hc =>
    (q.shelters_perform fuel hp).rests (q.sameState_of_isPlain fuel hp hc) m hm
  cases q with
  | load bytes => exact (rests_load fuel bytes).bind (fun _ => rests_pure _) m hm
  | step => exact rests_step fuel m hm
  | run => exact rests_run fuel m hm
  | functionCall name args =>
    exact (rests_functionCall fuel name args).bind (fun _ => rests_pure _) m hm
  | callClosure closure args =>
    exact (shelters_callClosure fuel closure args (by trivial)).rests_discard
      (leads_callClosure_sameState fuel closure args) m hm
  | processInbox => exact rests_processInbox fuel m hm
  | clearError =>
    by_cases hs : m.state = .noCode
    · refine ends_modify ?_
      rw [if_neg (by rw [hs]; simp)]
      exact hm
    · exact Shelters.ends_rested (R := fun _ => True)
        (shelters_modify fun _ => by split <;> rfl) hm hs
  | alloc v => exact (shelters_alloc_plain v).rests_discard (leads_alloc v) m hm
  | setField t name r =>
    have ht : t ≠ d := hm.anyLocals.pristine.record ▸ hq
    exact (shelters_setField ht name r).rests (leads_setField t name r) m hm
  | ret0 => exact rests_leaveFrame none m hm
  | ret1 => exact rests_ret1 m hm
  | _ => exact plain rfl (by simp)

omit [HostFunctions F] in
/-- The globals of a new machine are bound. -/
theorem shelters_bindGlobals {w : Ward} : Shelters w (bindGlobals : Action F Unit) :=
  shelters_get_bind fun _ _ => (shelters_alloc _ (by rfl)).bind fun _ _ =>
    (shelters_setGlobal _ _).bind fun _ _ => (shelters_alloc _ (by rfl)).bind fun _ _ =>
      (shelters_setGlobal _ _).bind fun _ _ =>
      (shelters_methodTable _).bind fun _ _ => (shelters_setGlobal _ _).bind fun _ _ =>
        (shelters_methodTable _).bind fun _ _ => (shelters_setGlobal _ _).bind fun _ _ =>
          (shelters_methodTable _).bind fun _ _ => shelters_setGlobal _ _

omit [HostFunctions F] in
theorem rests_bindGlobals : Rests d (bindGlobals : Action F Unit) := by
  intro m hm
  have standard := hm.anyLocals.standard
  have state : ∀ {m'}, Steady Heap.Arbitrary m m' → m'.state = m.state := fun st => by rw [st.same]
  exact ((shelters_bindGlobals.confined standard hm.anyLocals.pristine.safe).and
    (yields_bindGlobals reliance_arbitrary standard.reliable)).imp
    (fun _ _ h => hm.within h.1.1 h.1.2 (state h.2.1)) fun _ _ h =>
      hm.within h.1.1 h.1.2 (state h.2.2)

/-- The machines that host code can reach, with depths that fit in sixteen bits and without
functions of its own. A request may answer or fail. It may also run out of fuel, so that a script is
seen at any point of its run. -/
inductive Resting : Machine F → Prop
  /-- A machine with its own objects, -/
  | blank {s : Settings} {nil record globals listeners : Ref} {heap : Heap}
    (hs : s.stackSize ≤ 65535) (accepted : Heap.refusal? s.heapSize = none)
    (hc : coreObjects (Heap.make s.heapSize) = .ok (nil, record, globals, listeners) heap) :
    Resting (blank s nil record globals listeners heap)
  /-- whose globals are bound. -/
  | bound {m : Machine F} (before : Resting m) : Resting (stateAfter bindGlobals m)
  /-- A request. -/
  | served {m : Machine F} (before : Resting m) (fuel : Nat) (q : Request) (hq : q.Respects m) :
    Resting (stateAfter (q.perform fuel) m)

/-- New machines are at rest. -/
theorem resting_make {s : Settings} (hs : s.stackSize ≤ 65535) (hm : make s = .ok m) :
    Resting m := by
  obtain ⟨nil, record, globals, listeners, heap, accepted, hc, hx⟩ := exists_bindGlobals_of_make hm
  have before := Resting.bound (F := F) (.blank hs accepted hc)
  rwa [stateAfter, hx] at before

theorem Resting.rested (hm : Resting m) : ∃ d, Rested d m := by
  induction hm with
  | blank hs accepted hc =>
    exact ⟨_, .blank (pristine_blank accepted hc) (idle_blank accepted hc hs) rfl⟩
  | bound _ ih =>
    obtain ⟨d, hm⟩ := ih
    exact ⟨d, (rests_bindGlobals _ hm).stateAfter⟩
  | served _ fuel q hq ih =>
    obtain ⟨d, hm⟩ := ih
    exact ⟨d, (q.ends_rested hm fuel hq).stateAfter⟩

/-! ### Machines between two instructions -/

/-- Host code with `fuel` for every call, which is looked at when it makes one: the call takes its
course, or nothing is done from there on. -/
def Stopping (fuel : Nat) (call : Caller F) : Prop := ∀ closure args m,
  call closure args m = callClosure fuel closure args m ∨ call closure args m = .error .outOfFuel m

theorem Stopping.shelters {fuel : Nat} {call : Caller F} (hc : Stopping fuel call) {w : Ward}
    (hw : w.Rooted) : ∀ closure args, Shelters w (call closure args) := by
  have pausing : Pausing collectGarbage fuel call := by rwa [Pausing, callWith_collectGarbage]
  refine pausing.shelters fun closure args => ?_
  rw [callWith_collectGarbage]
  exact shelters_callClosure fuel closure args hw

/-- The machines that can be reached, inside requests as well. Whatever is begun may answer or fail,
and host code may be looked at where it calls a closure. -/
inductive Reachable : Machine F → Prop
  /-- A machine between two requests. -/
  | resting {m : Machine F} (hm : Resting m) : Reachable m
  /-- An instruction, of a script or of a function that was called. -/
  | instruction {m : Machine F} (before : Reachable m)
    (runs : 0 < m.frameDepth ∨ Resting m ∧ m.state = .ready) {fuel : Nat} {call : Caller F}
    (hcall : Stopping fuel call) :
    Reachable (stateAfter (do collectGarbage; execute (runHost call)) m)
  /-- A call from host code. -/
  | call {m : Machine F} (before : Reachable m) (closure : Ref) (args : List Ref) {fuel : Nat}
    {call : Caller F} (hcall : Stopping fuel call) :
    Reachable (stateAfter (do pushOperands closure args; Machine.call (runHost call))
      { m with state := .ready })
  /-- A message that is handled. -/
  | handling {m : Machine F} (before : Reachable m) (inbox : Ring (Message Ref))
    (message : Message Ref) {fuel : Nat} {call : Caller F} (hcall : Stopping fuel call) :
    Reachable (stateAfter (do dispatch call message; release message) { m with inbox })

/-- A call from host code keeps an anchored machine anchored. -/
theorem Anchored.ends_call {call : Caller F} (hm : Anchored d B m)
    (hcall : ∀ closure args, Shelters d (call closure args))
    (hnew : ∀ a closure args, Shelters (.record a) (call closure args)) (closure : Ref)
    (args : List Ref) : Ends (do pushOperands closure args; Machine.call (runHost call)) m
      (fun _ m' => Anchored d B m') fun _ m' => Anchored d B m' := by
  refine ends_bind (hm.ends_shelters (shelters_pushOperands closure args)) fun _ m₁ hm₁ => ?_
  have afterCall : ∀ {m₂}, Calls d m₁ m₂ → Anchored d B m₂ := by
    intro m₂ ca
    cases ca with
    | opened operands op spared locals _ =>
      exact hm₁.opened op operands.base_le (by omega) spared locals
    | returned operands re spared => exact hm₁.within (re.within operands.base_le) spared
  refine (calls_call hm₁.standard hm₁.pristine.safe (concludes_runHost hcall)
    fun a => concludes_runHost (hnew a)).imp (fun _ _ => afterCall) fun _ _ h => ?_
  rcases h with ⟨wi, sp⟩ | ca
  · exact hm₁.within wi sp
  · exact afterCall ca

/-- **Machines that can be reached are anchored.** -/
theorem Reachable.anchored (hm : Reachable m) : ∃ d, Anchored d (fun _ => True) m := by
  induction hm with
  | resting hm =>
    obtain ⟨d, hm⟩ := hm.rested
    exact ⟨d, hm.anyLocals⟩
  | @instruction m _ runs _ _ hcall ih =>
    obtain ⟨d, hm⟩ := ih
    have hl : m.locals ≠ d := by
      rcases runs with hopen | ⟨rested, ready⟩
      · exact hm.locals_of_open hopen
      · obtain ⟨d', hm'⟩ := rested.rested
        have hd : d = d' := hm.pristine.record.symm.trans hm'.anyLocals.pristine.record
        rw [hd]
        exact (hm'.anchored_of_state (by rw [ready]; simp)).locals
    exact ⟨d, (hm.ends_instruction hl (hcall.shelters trivial)
      fun _ => hcall.shelters trivial).stateAfter⟩
  | @call m _ closure args _ _ hcall ih =>
    obtain ⟨d, hm⟩ := ih
    have hm₀ : Anchored d (fun _ => True) { m with state := .ready } :=
      (hm.ends_shelters (shelters_modify (f := fun m => { m with state := .ready })
        fun _ => rfl)).of_ok rfl
    exact ⟨d, (hm₀.ends_call (hcall.shelters trivial) (fun _ => hcall.shelters trivial) closure
      args).stateAfter⟩
  | @handling m _ inbox message _ _ hcall ih =>
    obtain ⟨d, hm⟩ := ih
    have hm₀ : Anchored d (fun _ => True) { m with inbox } :=
      (hm.ends_shelters (shelters_modify (f := fun m => { m with inbox }) fun _ => rfl)).of_ok rfl
    exact ⟨d, (hm₀.ends_shelters ((shelters_dispatch (w := d) (hcall.shelters trivial)
      message).bind fun _ _ => shelters_release message)).stateAfter⟩

end Running

end Machine

end SwarmVm
