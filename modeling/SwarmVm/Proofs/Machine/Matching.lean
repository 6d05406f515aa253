import SwarmVm.Proofs.Heap.Marks
import SwarmVm.Proofs.Machine.Reachable

/-!
# Matching calls and returns

A call instruction finds its closure and its arguments on the stack and takes them off; the
return that matches it puts one result in their place. In between the called function may execute
any number of instructions, make calls of its own, and have garbage collected before each of them.
The registers of the caller are kept all the while in three stack entries, two of which refer to
objects of the heap.

A run that stays above the depth of the caller is a run inside the call, so the chain of the callers
that wait ends with this caller, and the instruction that brings the depth back is the return that
takes it off.

## Main definitions

* `Machine.advance` — an instruction, after a collection
* `Machine.CallsNext` — a machine that is about to make a call
* `Machine.RunsAbove` — runs inside a call
* `Machine.GivesBack` — the machine of the caller, with the result of the call

## Main results

* `Machine.begun_advance` — a call by an instruction
* `Machine.InRecord.gives_back` — the return that matches it
* `Machine.calls_match` — both, for every machine that can be reached
-/

namespace SwarmVm

namespace Heap

variable {h : Heap} {roots : List Ref} {a r : Ref}

/-- The sequence of an array is as it was, unless the array is garbage. -/
theorem arrayElements_collect (wf : h.WellFormed) (tidy : h.Tidy)
    (kept : h.isValid a = true → (h.collect roots).2.isValid a = true) :
    (h.collect roots).2.arrayElements a = h.arrayElements a := by
  have none : ∀ {h : Heap}, h.kind a = .nil → h.arrayElements a = [] := by
    intro h hk
    rw [arrayElements, arraySlots, chain_of_not_table (by rw [hk]; simp)]
    rfl
  cases hv : h.isValid a with
  | true => exact (unaltered_collect wf (kept hv)).arrayElements
  | false =>
    have hv' : (h.collect roots).2.isValid a = false := by
      by_contra hc
      rw [((isValid_collect_iff wf.layout).1 (Bool.eq_true_of_not_eq_false hc)).1] at hv
      cases hv
    rw [none (tidy a hv), none (tidy_collect wf.layout tidy roots a hv')]

/-- The record that a closure captured is kept with it. -/
theorem isValid_captured_collect (layout : h.Layout) {c : Closure} {record : Ref} (hr : r ∈ roots)
    (hc : h.value r = .closure c) (captured : c.captured = some record)
    (hv : h.isValid record = true) : (h.collect roots).2.isValid record = true := by
  refine (isValid_collect_iff layout).2 ⟨hv, r, (kind_of_value hc (by simp)).1, .inl hr, ?_⟩
  exact .single (.captured hc captured)

end Heap

namespace Machine

open Heap (slotRef reliance_arbitrary)

variable {F : Type} {entry m m' m'' : Machine F} {d : Ref} {c : Site} {sites : List Site}
  {fuel : Nat}

/-! ### An instruction, after a collection -/

theorem operand_of_fetch {op : Opcode} {operand : Option UInt16} (hf : m.fetch = .ok (op, operand))
    (ho : op.hasOperand = false) : operand = none := by
  unfold fetch at hf
  dsimp only at hf
  split at hf
  · cases hf
  · split at hf
    · cases hf
    · split at hf
      · next hop =>
        split at hf
        · cases hf
        · cases hf
          rw [hop] at ho
          cases ho
      · cases hf
        rfl

/-- `m'` is the machine `m` after a collection, with the program counter past an instruction. -/
def Poised (m : Machine F) (op : Opcode) (m' : Machine F) : Prop := ∃ log, m' = { m with
  heap := (m.heap.collect (m.stack.slots.toList ++ m.ambient)).2, log
  pc := m.pc + UInt16.ofNat op.width }

variable [HostFunctions F]

/-- Collect garbage, and execute an instruction. -/
def advance (fuel : Nat) : Action F Unit := do
  collectGarbage
  execute (runHost (callClosure fuel))

/-- The instruction is executed with the program counter past it. The script may also end. -/
theorem ends_advance (hm : m.Standard) (hs : Safe d m) : Ends (advance fuel) m
    (fun _ m' => ∃ op operand, m.fetch = .ok (op, operand)
      ∧ (op = .done ∧ Within m m' ∨ ∃ m₁, Poised m op m₁ ∧ Within m m₁ ∧ Spared d m m₁
        ∧ perform (runHost (callClosure fuel)) op (operand.getD 0) m₁ = .ok () m'))
      fun _ _ => True := by
  have collects : Shelters d (collectGarbage : Action F Unit) := shelters_collectGarbage trivial
  refine ends_bind ((ends_collectGarbage.and (collects.confined hm hs)).imp (fun _ _ => id)
    fun _ _ _ => trivial) fun _ m₁ h₁ => ends_get_bind ?_
  obtain ⟨⟨log, he⟩, w, sp⟩ := h₁
  have hs₁ := hs.within w sp
  have hfetch : m₁.fetch = m.fetch := by
    rw [he]
    rfl
  rw [hfetch]
  cases hf : m.fetch with
  | error e => exact ends_throw trivial
  | ok p =>
    obtain ⟨op, operand⟩ := p
    refine ends_get_bind (ends_bind (ends_modify (Q := fun _ m₂ => (Within m m₂ ∧ Spared d m m₂)
      ∧ ∃ log, m₂ = { m₁ with log }) ⟨((shelters_emit _).ends_from hs₁ w sp).of_ok rfl, _, rfl⟩)
      fun _ m₂ h₂ => ?_)
    obtain ⟨⟨w₂, sp₂⟩, log₂, he₂⟩ := h₂
    have hs₂ := hs.within w₂ sp₂
    split
    · next hdone =>
      exact ((shelters_modify fun _ => rfl).ends_from hs₂ w₂ sp₂).imp
        (fun _ _ h => ⟨op, operand, rfl, .inl ⟨hdone, h.1⟩⟩) fun _ _ _ => trivial
    · refine ends_bind (ends_modify (Q := fun _ m₃ => (Within m m₃ ∧ Spared d m m₃)
        ∧ m₃ = { m₂ with pc := m₂.pc + UInt16.ofNat op.width }) ⟨?_, rfl⟩) fun _ m₃ h₃ => ?_
      · exact ((shelters_modify (f := fun m : Machine F => { m with
          pc := m.pc + UInt16.ofNat op.width }) fun _ => rfl).ends_from hs₂ w₂ sp₂).of_ok rfl
      obtain ⟨⟨w₃, sp₃⟩, he₃⟩ := h₃
      refine ⟨fun hs => ⟨op, operand, rfl, .inr ⟨m₃, ⟨log₂, ?_⟩, w₃, sp₃, hs⟩⟩, fun _ => trivial⟩
      rw [he₃, he₂, he]

/-! ### Operands -/

/-- The next instruction calls the closure `c`. The operands of the call are on top of the stack,
with `below` under them: the arguments `args`, the first one uppermost, their number and the
closure. -/
structure CallsNext (m : Machine F) (below args : List Ref) (c : Closure) : Prop where
  /-- The instruction is a call. -/
  fetch : m.fetch = .ok (.call, none)
  /-- The operands are on the stack. -/
  operands : ∃ count closure, m.stack.slots.toList = below ++ args.reverse ++ [count, closure]
    ∧ m.value closure = .closure c
    ∧ ∃ i : Int16, m.value count = .int i ∧ i.toInt = args.length

section Stack

variable {below args : List Ref} {count closure : Ref}

omit [HostFunctions F]

theorem depth_of_operands (hs : m.stack.slots.toList = below ++ args.reverse ++ [count, closure]) :
    m.stack.depth = below.length + args.length + 2 := by
  rw [OperandStack.depth, ← Array.length_toList, hs, List.length_append, List.length_append,
    List.length_reverse]
  rfl

theorem getD_of_operands (hs : m.stack.slots.toList = below ++ args.reverse ++ [count, closure])
    (i : Nat) : m.stack.slots.getD i 0 = (below ++ args.reverse ++ [count, closure])[i]?.getD 0 := by
  rw [Array.getD_eq_getD_getElem?, ← Array.getElem?_toList, hs]

/-- The closure, and the number of arguments. -/
theorem top_of_operands (hs : m.stack.slots.toList = below ++ args.reverse ++ [count, closure]) :
    m.stack.slots.getD (m.stack.depth - 1) 0 = closure
      ∧ m.stack.slots.getD (m.stack.depth - 2) 0 = count := by
  have hlen : (below ++ args.reverse).length = below.length + args.length := by simp
  rw [getD_of_operands hs, getD_of_operands hs, depth_of_operands hs, ← hlen]
  constructor
  · rw [List.getElem?_append_right (by omega)]
    simp
  · rw [List.getElem?_append_right (by omega)]
    simp

/-- The arguments. -/
theorem arguments_of_operands
    (hs : m.stack.slots.toList = below ++ args.reverse ++ [count, closure]) :
    m.arguments args.length = args := by
  refine List.ext_getElem (by simp [arguments]) fun k hk hk' => ?_
  have hrev : args.reverse.length = args.length := List.length_reverse
  have hslot : m.stack.slots.getD (m.stack.depth - 1 - (2 + k)) 0 = args[k] := by
    rw [getD_of_operands hs, depth_of_operands hs, List.append_assoc,
      List.getElem?_append_right (by omega), List.getElem?_append_left (by omega),
      List.getElem?_reverse (by omega),
      show args.length - 1 - (below.length + args.length + 2 - 1 - (2 + k) - below.length) = k by
        omega, List.getElem?_eq_getElem hk', Option.getD_some]
  simpa [arguments] using hslot

/-- What is below them. -/
theorem truncate_of_operands
    (hs : m.stack.slots.toList = below ++ args.reverse ++ [count, closure]) :
    (m.stack.truncate (m.stack.depth - args.length - 2)).slots.toList = below := by
  rw [depth_of_operands hs, OperandStack.truncate, Array.take_eq_extract, Array.toList_extract, hs,
    show below.length + args.length + 2 - args.length - 2 = below.length by omega]
  simp

end Stack

/-! ### Calls by an instruction -/

omit [HostFunctions F] in
/-- A call of a closure with code. -/
theorem ends_call_code (hm : m.Standard) {host : UInt16 → Action F Unit} {cl : Closure}
    {address : UInt16}
    (hc : m.value (m.stack.slots.getD (m.stack.depth - 1) 0) = .closure cl)
    (ht : cl.target = .code address) : Ends (call host) m (fun _ m' => m'.pc = address
      ∧ ∃ argc, m.Operands argc ∧ Opened (m.stack.depth - argc - 2) m m' ∧ Begun m cl argc m')
      fun _ _ => True := by
  have enter := (begun_enter hm.toSound).and (entered_enter reliance_arbitrary hm.reliable)
  refine ends_bind (enter.imp (fun _ _ => id) fun _ _ _ => trivial) fun target m₁ h₁ => ?_
  obtain ⟨⟨cl', argc, hc', ht', hargs, b⟩, argc', record, base, ret, m₀, en, he⟩ := h₁
  have hcl : cl' = cl := by
    rw [hc, Value.closure.injEq] at hc'
    exact hc'.symm
  subst hcl
  have hargc : argc' = argc := by
    obtain ⟨⟨i, hi, ha⟩, -⟩ := hargs
    obtain ⟨j, hj, ha'⟩ := en.count
    rw [hi, Value.int.injEq] at hj
    rw [← hj, ha] at ha'
    exact_mod_cast ha'.symm
  subst hargc
  have op := en.opened hm
  rw [← he] at op
  rw [← ht', ht]
  refine ends_modify ⟨rfl, argc', hargs, op.within ?_, b.grows, b.mints, ⟨b.core.nil,
    b.core.record, b.core.globals, b.core.listeners⟩, b.fresh, b.holds⟩
  exact (confined_modify (f := fun m : Machine F => { m with pc := address }) (fun _ => rfl) m₁
    op.standard).of_ok rfl

omit [HostFunctions F] in
/-- A collection keeps the operands of a call, and what the closure captured. -/
theorem Poised.operands {op : Opcode} (hp : Poised m op m') (hm : m.Standard)
    {below args : List Ref} {count closure : Ref} {cl : Closure} {i : Int16}
    (hs : m.stack.slots.toList = below ++ args.reverse ++ [count, closure])
    (hc : m.value closure = .closure cl) (hi : m.value count = .int i) :
    m'.value closure = .closure cl ∧ m'.value count = .int i
      ∧ m'.heap.arrayElements (cl.captured.getD m'.defaultRecord)
        = m.heap.arrayElements (cl.captured.getD m.defaultRecord) := by
  obtain ⟨log, rfl⟩ := hp
  have wf := hm.wellFormed
  have root : ∀ {r}, r ∈ m.stack.slots.toList → r ∈ m.stack.slots.toList ++ m.ambient :=
    fun hr => List.mem_append_left _ hr
  have hclosure : closure ∈ m.stack.slots.toList ++ m.ambient := root (by simp [hs])
  have hcount : count ∈ m.stack.slots.toList ++ m.ambient := root (by simp [hs])
  refine ⟨?_, (Heap.stays_collect wf.layout hcount).int i hi, ?_⟩
  · have hv := (Heap.stays_collect wf.layout hclosure).isValid (Heap.kind_of_value hc (by simp)).1
    exact (Heap.value_collect wf.layout hv).trans hc
  · refine Heap.arrayElements_collect wf hm.tidy fun hv => ?_
    cases hcap : cl.captured with
    | none =>
      rw [hcap] at hv
      refine (Heap.stays_collect wf.layout ?_).isValid hv
      exact List.mem_append_right _ (by simp [ambient])
    | some record =>
      rw [hcap] at hv
      exact Heap.isValid_captured_collect wf.layout hclosure hc hcap hv

/-- **What a call by an instruction starts with.** Its locals are what the closure captured, or nil
when it captured nothing, and then the arguments in their order. -/
theorem begun_advance (hm : m.Standard) (hd : Pristine d m) {below args : List Ref} {cl : Closure}
    {address : UInt16} (hn : CallsNext m below args cl) (ht : cl.target = .code address)
    (hs : advance fuel m = .ok () m') :
    m'.pc = address ∧ m'.frameDepth = m.frameDepth + 1
      ∧ m'.heap.arrayElements m'.locals = (match cl.captured with
        | some record => m.heap.arrayElements record
        | none => [m.nil]) ++ args.map slotRef
      ∧ ∃ entry, InRecord d entry (entry.siteAt entry.stack.depth) [] m'
        ∧ entry.stack.slots.toList = below ∧ entry.stack.base = m.stack.base
        ∧ entry.locals = m.locals ∧ entry.frameDepth = m.frameDepth ∧ entry.pc = m.pc + 1
        ∧ entry.nil = m.nil := by
  obtain ⟨op, operand, hf, h⟩ := (ends_advance hm hd.safe).of_ok hs
  rw [hn.fetch] at hf
  cases hf
  obtain ⟨hdone, -⟩ | ⟨m₁, hp, w, sp, hcall⟩ := h
  · cases hdone
  obtain ⟨count, closure, hslots, hc, i, hi, hlen⟩ := hn.operands
  obtain ⟨hc₁, hi₁, helements⟩ := hp.operands hm hslots hc hi
  have hpoised : m₁.stack = m.stack ∧ m₁.pc = m.pc + 1 := by
    obtain ⟨log, rfl⟩ := hp
    exact ⟨rfl, rfl⟩
  have hslots₁ : m₁.stack.slots.toList = below ++ args.reverse ++ [count, closure] := by
    rw [hpoised.1, hslots]
  obtain ⟨htop, hsecond⟩ := top_of_operands hslots₁
  obtain ⟨hpc, argc, hargs, op, b⟩ :=
    (ends_call_code w.standard (by rw [htop]; exact hc₁) ht).of_ok hcall
  have hargc : argc = args.length := by
    obtain ⟨⟨j, hj, ha⟩, -⟩ := hargs
    rw [hsecond, hi₁, Value.int.injEq] at hj
    rw [← hj, hlen] at ha
    exact_mod_cast ha.symm
  subst hargc
  obtain ⟨sp', hl⟩ := b.spared sp.apart
  refine ⟨hpc, by rw [op.frameDepth, w.frameDepth], ?_, ?_⟩
  · rw [b.holds.arrayElements, helements, arguments_of_operands hslots₁]
    cases cl.captured with
    | some record => rfl
    | none => rw [Option.getD_none, hd.record, hd.elements]
  · have hd' : m₁.stack.depth - args.length - 2 ≤ m₁.stack.depth := by omega
    have ld := loaded_truncate w.standard hargs.base_le hd'
    rw [← OperandStack.depth_truncate hd'] at op
    refine ⟨{ m₁ with stack := m₁.stack.truncate (m₁.stack.depth - args.length - 2) },
      ⟨(ld.opened op).inCall, sp.core.record.trans hd.record, ⟨sp'.apart, sp'.elements,
        sp'.core.nil, sp'.core.record, sp'.core.globals, sp'.core.listeners⟩, hl,
        fun c' hc' => ?_⟩,
      truncate_of_operands hslots₁, ?_, w.locals, w.frameDepth, hpoised.2, sp.core.nil⟩
    · cases hc'
    · exact ld.base.symm.trans w.base

/-! ### Runs inside a call -/

/-- `m'` comes from `m` by instructions that do not fail, and more than `depth` calls are open all
the way. -/
inductive RunsAbove (depth : Nat) (m : Machine F) : Machine F → Prop
  /-- No instruction. -/
  | here (above : depth < m.frameDepth) : RunsAbove depth m m
  /-- One more instruction. -/
  | next {m' m'' : Machine F} (before : RunsAbove depth m m') {fuel : Nat}
    (hs : advance fuel m' = .ok () m'') (above : depth < m''.frameDepth) : RunsAbove depth m m''

/-- Such a run is one inside the call. -/
theorem RunsAbove.inRecord (hr : RunsAbove entry.frameDepth m m')
    (hm : ∃ c sites, InRecord d entry c sites m) : ∃ c sites, InRecord d entry c sites m' := by
  induction hr with
  | here _ => exact hm
  | @next m₁ m₂ _ fuel hs above ih =>
    obtain ⟨c, sites, ir⟩ := ih
    have hstep : Performs d (advance fuel : Action F Unit) := performs_instruction
      (fun closure args => shelters_callClosure fuel closure args (by trivial))
      (fun _ closure args => shelters_callClosure fuel closure args (by trivial))
      (shelters_collectGarbage trivial)
    rcases ir.strides ((hstep m₁ ir.standard ir.atSite ir.safe).of_ok hs) with hm₂ | ⟨re, -⟩
    · exact hm₂
    · have := re.frameDepth
      omega

/-! ### Returns by an instruction -/

omit [HostFunctions F] in
/-- The result is what is put on the stack. -/
theorem Called.ends_leaveFrame (hc : Called c m) (result : Option Ref) :
    Ends (leaveFrame result) m (fun _ m' => Resumed c m m'
      ∧ m'.stack.slots[c.depth]? = some (result.getD m.nil)) fun _ _ => False := by
  obtain ⟨_, hb, hi⟩ := hc.saved.base
  obtain ⟨_, ha, hj⟩ := hc.saved.address
  refine (Machine.ends_leaveFrame hc.standard.wellFormed hc.frameDepth hc.base hc.standard.floor
    hc.standard.ceiling hc.locals.1 hb hi hc.saved.locals ha hj).imp (fun _ m' h => ?_) fun _ _ => id
  have hdepth : c.depth ≤ m.stack.depth := by
    have := hc.base
    have := hc.standard.floor
    omega
  have hsize := OperandStack.depth_truncate hdepth
  rw [OperandStack.depth] at hsize
  rw [h]
  refine ⟨resumed_returned hc result, ?_⟩
  rw [returned, Array.getElem?_push, hsize, if_pos rfl]

omit [HostFunctions F] in
/-- What is taken off the stack was its last entry. -/
theorem ends_pop_getLast (hm : m.Standard) : Ends pop m
    (fun r m' => Within m m' ∧ m.stack.slots.toList.getLast? = some r) fun _ _ => True := by
  have last : Ends pop m (fun r _ => m.stack.slots.toList.getLast? = some r) fun _ _ => True := by
    have hfloor := hm.floor
    rw [ends_iff, pop, OperandStack.pop]
    by_cases hbase : m.stack.depth = m.stack.base
    · simp only [hbase, if_true]
    · simp only [hbase, if_false]
      have hlt : m.stack.depth - 1 < m.stack.slots.size := by
        rw [OperandStack.depth] at hbase hfloor ⊢
        omega
      rw [List.getLast?_eq_getElem?, Array.length_toList, Array.getElem?_toList,
        Array.getD_eq_getD_getElem?, ← OperandStack.depth, Array.getElem?_eq_getElem hlt,
        Option.getD_some]
  exact ((upholds_pop.confined m hm).and last).imp (fun _ _ => id) fun _ _ _ => trivial

omit [HostFunctions F] in
/-- The result is what was on top of the stack. -/
theorem Called.ends_ret1 (hc : Called c m) : Ends ret1 m (fun _ m' => Resumed c m m'
    ∧ ∃ r, m.stack.slots.toList.getLast? = some r ∧ m'.stack.slots[c.depth]? = some r)
    fun _ _ => True := by
  have hd : c.depth ≤ m.stack.base := by
    rw [hc.base]
    omega
  refine ends_get_bind (ends_bind ((ends_require_cases _ _).imp (fun _ _ => id)
    fun _ _ _ => trivial) fun _ m' h => ?_)
  obtain ⟨rfl, -⟩ := h
  refine ends_bind (ends_pop_getLast hc.standard) fun r m₁ h₁ => ?_
  obtain ⟨w, hlast⟩ := h₁
  refine ((hc.within w).ends_leaveFrame (some r)).imp (fun _ m₂ h₂ => ?_) fun _ _ _ => trivial
  exact ⟨w.resumed h₂.1 hd, r, hlast, h₂.2⟩

omit [HostFunctions F] in
/-- A return that brings the depth of `entry` back is the return to `entry`. -/
theorem InCall.returned_of_depth (ic : InCall entry c sites m) (re : Resumed c m m')
    (hdepth : m'.frameDepth ≤ entry.frameDepth) {result : Ref}
    (ht : m'.stack.slots[c.depth]? = some result) :
    Returned entry.stack.depth entry m'
      ∧ m'.stack.slots.toList = entry.stack.slots.toList ++ [result] := by
  have hsites : sites = [] := by
    have := ic.frameDepth
    have := re.frameDepth
    exact List.eq_nil_of_length_eq_zero (by omega)
  subst hsites
  have hc : c = entry.siteAt entry.stack.depth := by
    have hlast := ic.bottom
    rwa [List.getLast?_singleton, Option.some.injEq] at hlast
  have ret := ic.returned re
  have hsize : m'.stack.slots.size = entry.stack.slots.size + 1 := ret.depth
  rw [hc] at ht
  have hslots : m'.stack.slots = entry.stack.slots.push result := by
    refine Array.ext_getElem? fun i => ?_
    rw [Array.getElem?_push]
    split
    · next hi =>
      rw [hi]
      exact ht
    · next hi =>
      by_cases hlt : i < entry.stack.slots.size
      · exact ret.slots i hlt
      · rw [Array.getElem?_eq_none (by omega), Array.getElem?_eq_none (by omega)]
  exact ⟨ret, by rw [hslots, Array.toList_push]⟩

/-- **The instruction that brings the depth back is a return,** and the machine is that of the
caller again, with the result on its stack. -/
theorem InRecord.gives_back (ir : InRecord d entry c sites m) (hs : advance fuel m = .ok () m')
    (hdepth : m'.frameDepth ≤ entry.frameDepth) :
    Returned entry.stack.depth entry m' ∧ ∃ result,
      (m.fetch = .ok (.ret0, none) ∧ result = entry.nil
        ∨ m.fetch = .ok (.ret1, none) ∧ m.stack.slots.toList.getLast? = some result)
      ∧ m'.stack.slots.toList = entry.stack.slots.toList ++ [result] := by
  have habove := ir.frameDepth
  obtain ⟨op, operand, hf, h⟩ := (ends_advance ir.standard ir.safe).of_ok hs
  obtain ⟨-, w⟩ | ⟨m₁, hp, w, sp, hperform⟩ := h
  · have := w.frameDepth
    omega
  have ir₁ := ir.within w sp
  have habove₁ := ir₁.frameDepth
  have hstack : m₁.stack = m.stack := by
    obtain ⟨log, rfl⟩ := hp
    rfl
  by_cases hop : op.switchesFrame = false
  · have hx : Confined (perform (runHost (callClosure fuel)) op (operand.getD 0) : Action F Unit) :=
      confined_of_yields fun hm => yields_perform reliance_arbitrary hm hop
    have := ((hx m₁ ir₁.standard).of_ok hperform).frameDepth
    omega
  cases op with
  | call =>
    obtain ⟨argc, -, op | re⟩ := (ends_callHost ir₁.standard
      (confined_callClosure fuel)).of_ok hperform
    · have := op.frameDepth
      omega
    · have := re.frameDepth
      omega
  | ret0 =>
    obtain ⟨re, ht⟩ := (ir₁.called.ends_leaveFrame none).of_ok hperform
    obtain ⟨ret, hslots⟩ := ir₁.toInCall.returned_of_depth re hdepth ht
    exact ⟨ret, _, .inl ⟨operand_of_fetch hf rfl ▸ hf, ir₁.spared.core.nil⟩, hslots⟩
  | ret1 =>
    obtain ⟨re, result, hresult, ht⟩ := ir₁.called.ends_ret1.of_ok hperform
    rw [hstack] at hresult
    obtain ⟨ret, hslots⟩ := ir₁.toInCall.returned_of_depth re hdepth ht
    exact ⟨ret, result, .inr ⟨operand_of_fetch hf rfl ▸ hf, hresult⟩, hslots⟩
  | _ => exact absurd rfl hop

/-! ### A machine that makes a call -/

/-- The machine after a collection that keeps the marked objects. -/
def swept (m : Machine F) (marks : Array Bool) : Machine F :=
  let (freed, heap) := m.heap.collectMarked marks
  { m with heap, log := m.log.add (.collected freed.objects freed.segments heap.freeBytes) }

/-- The given objects are those that a collection marks, and there is room for the roots. -/
def Marks (m : Machine F) (marks : Array Bool) : Prop :=
  m.stack.hasRoom m.ambient.length = true
    ∧ m.heap.markWithin? 64 (Array.replicate m.heap.objectSlots false)
      (m.stack.slots.toList ++ m.ambient ++ m.heap.permanents) = some marks

instance (m : Machine F) (marks : Array Bool) : Decidable (m.Marks marks) :=
  inferInstanceAs (Decidable (_ ∧ _))

omit [HostFunctions F] in
theorem collectGarbage_of_marks {marks : Array Bool} (hm : m.Marks marks) :
    collectGarbage m = .ok () (m.swept marks) := by
  have hcollect : m.heap.collect (m.stack.slots.toList ++ m.ambient) = m.heap.collectMarked marks :=
    Heap.collect_of_markWithin? hm.2
  have hroom : collectGarbage m = (require (m.stack.hasRoom m.ambient.length) .stack >>= fun _ => do
      let freed ← changeHeap fun h => h.collect (m.stack.slots.toList ++ m.ambient)
      emit (.collected freed.objects freed.segments (← get).heap.freeBytes)) m := rfl
  rw [hroom, hm.1, swept, ← hcollect]
  rfl

/-- The machine after an instruction, when a collection keeps the marked objects. -/
def advanced (m : Machine F) (marks : Array Bool) : Machine F :=
  stateAfter (execute (runHost (callClosure 1))) (m.swept marks)

theorem advance_of_marks {marks : Array Bool} (hm : m.Marks marks)
    (ha : answers (execute (runHost (callClosure 1))) (m.swept marks) = true) :
    advance 1 m = .ok () (m.advanced marks) := by
  have hbind : advance 1 m
      = EStateM.bind collectGarbage (fun _ => execute (runHost (callClosure 1))) m := rfl
  rw [hbind, EStateM.bind, collectGarbage_of_marks hm]
  exact eq_ok_of_answers ha

/-- An image with a call and a function that returns its first argument. -/
def firstArgument : List UInt8 := [0, 0, Opcode.nop.byte, Opcode.call.byte,
  Opcode.loadLocal.byte, 1, 0, Opcode.ret1.byte]

/-- What host code asks of a machine to have the function called. -/
def preparation : List Request := [.load firstArgument, .alloc (.int 7), .alloc (.int 1),
  .alloc (.closure (.ofCode 2)), .push 0, .push 5, .push 6, .push 7]

/-- A machine that is about to call the function, with an object under the operands. -/
def caller : Machine Empty :=
  preparation.foldl (fun m q => stateAfter (q.perform 1) m)
    (blank { heapSize := 192 } 0 1 2 3 smallHeap)

theorem Resting.foldl {m : Machine F} (hm : Resting m) {l : List Request}
    (hl : ∀ q ∈ l, ∀ m : Machine F, q.Respects m) :
    Resting (l.foldl (fun m q => stateAfter (q.perform 1) m) m) := by
  induction l generalizing m with
  | nil => exact hm
  | cons q l ih =>
    exact ih (hm.served 1 q (hl q List.mem_cons_self m))
      fun q' hq' => hl q' (List.mem_cons_of_mem q hq')

theorem resting_caller : Resting caller := by
  have hb : Resting (blank { heapSize := 192 } 0 1 2 3 smallHeap : Machine Empty) :=
    .blank (s := { heapSize := 192 }) (by decide) (by decide) coreObjects_small
  rw [caller]
  refine hb.foldl fun q hq m => ?_
  simp only [preparation, List.mem_cons, List.not_mem_nil, or_false] at hq
  rcases hq with rfl | rfl | rfl | rfl | rfl | rfl | rfl | rfl <;> trivial

/-- The marks of the collections before the three instructions. -/
def marksBefore : Array Bool := Array.replicate 8 true

@[inherit_doc marksBefore]
def marksInside : Array Bool :=
  #[true, true, true, true, true, true, false, false, true, true, true]

/-! ### Both together -/

/-- `m'` is the machine `m`, which made a call with `below` under its operands, after the call has
returned `result`. -/
structure GivesBack (m : Machine F) (below : List Ref) (result : Ref) (m' : Machine F) : Prop where
  /-- One result takes the place of the operands. -/
  stack : m'.stack.slots.toList = below ++ [result]
  /-- The floor is that of the caller, -/
  base : m'.stack.base = m.stack.base
  /-- and so are the locals -/
  locals : m'.locals = m.locals
  /-- and the number of open calls. -/
  frameDepth : m'.frameDepth = m.frameDepth
  /-- The caller goes on after the instruction. -/
  pc : m'.pc = m.pc + 1

omit [HostFunctions F] in
/-- There is something to return to exactly where a call is open. -/
theorem Anchored.ret0_fails_iff {B : Ref → Prop} (hm : Anchored d B m) :
    (∃ e m', ret0 m = .error e m') ↔ m.frameDepth = 0 := by
  cases hm with
  | idle _ standing =>
    refine iff_of_true ?_ standing.frameDepth
    have fails := ends_leaveFrame_idle standing.frameDepth none
    cases hs : ret0 m with
    | ok _ m' => exact (fails.of_ok hs).elim
    | error e m' => exact ⟨e, m', rfl⟩
  | inCall _ _ _ chain =>
    refine iff_of_false ?_ (by have := chain.frameDepth; omega)
    rintro ⟨e, m', hs⟩
    exact (chain.called.ends_leaveFrame none).of_error hs

/-- **Calls and returns match.** In a machine that can be reached, with depths that fit in sixteen
bits and with standard host functions only, let an instruction call a closure with code.

The call starts with the locals that the closure captured, or with nil when it captured nothing,
followed by the arguments in their order, as far as they are objects: an index beyond the range of
the elements of an array, which no object has, is reduced to it. After any number of instructions
that do not fail, the one that first brings the number of open calls back is a return. It leaves the
stack of the caller with one result in place of the operands, which is nil or what was on top of the
stack of the called function, and gives back the floor, the locals and the address after the call.

And in such a machine, returning nil fails exactly if no call is open. -/
theorem calls_match (hm : m.Reachable) :
    (∀ (below args : List Ref) (cl : Closure) (address : UInt16) (fuel : Nat) (m₁ : Machine F),
      CallsNext m below args cl → cl.target = .code address → advance fuel m = .ok () m₁ →
      m₁.pc = address ∧ m₁.frameDepth = m.frameDepth + 1
      ∧ m₁.heap.arrayElements m₁.locals = (match cl.captured with
        | some record => m.heap.arrayElements record
        | none => [m.nil]) ++ args.map slotRef
      ∧ ((∀ r ∈ args, r.toNat < Heap.elementRange) → args.map slotRef = args)
      ∧ ∀ (m₂ m₃ : Machine F) (fuel' : Nat), RunsAbove m.frameDepth m₁ m₂ →
        advance fuel' m₂ = .ok () m₃ → m₃.frameDepth ≤ m.frameDepth →
        ∃ result, (m₂.fetch = .ok (.ret0, none) ∧ result = m.nil
            ∨ m₂.fetch = .ok (.ret1, none) ∧ m₂.stack.slots.toList.getLast? = some result)
          ∧ GivesBack m below result m₃)
    ∧ ((∃ e m', ret0 m = .error e m') ↔ m.frameDepth = 0) := by
  obtain ⟨d, ha⟩ := hm.anchored
  refine ⟨?_, ha.ret0_fails_iff⟩
  intro below args cl address fuel m₁ hn ht hs
  obtain ⟨hpc, hdepth, hlocals, entry, ir, hbelow, hbase, hl, hfd, hret, hnil⟩ :=
    begun_advance ha.standard ha.pristine hn ht hs
  refine ⟨hpc, hdepth, hlocals, fun hargs => ?_, fun m₂ m₃ fuel' hr hs' hd => ?_⟩
  · exact (List.map_congr_left fun r h => Heap.slotRef_of_lt (hargs r h)).trans (List.map_id args)
  · rw [← hfd] at hr hd
    obtain ⟨c, sites, ir₂⟩ := hr.inRecord ⟨_, _, ir⟩
    obtain ⟨re, result, hresult, hstack⟩ := ir₂.gives_back hs' hd
    rw [hnil] at hresult
    refine ⟨result, hresult, ?_, re.base.trans hbase, re.locals.trans hl, re.frameDepth.trans hfd,
      re.pc.trans hret⟩
    rw [hstack, hbelow]

/-- The three machines that a call of the function goes through. -/
def called : Machine Empty := caller.advanced marksBefore

@[inherit_doc called]
def loaded : Machine Empty := called.advanced marksInside

@[inherit_doc called]
def answered : Machine Empty := loaded.advanced marksInside

theorem caller_evaluates :
    (caller.fetch = .ok (.call, none) ∧ caller.stack.slots.toList = [0, 5, 6, 7]
      ∧ caller.value 7 = .closure (.ofCode 2) ∧ caller.value 6 = .int 1
      ∧ caller.frameDepth = 0 ∧ caller.nil = 0)
    ∧ (caller.Marks marksBefore
      ∧ answers (execute (runHost (callClosure 1))) (caller.swept marksBefore) = true)
    ∧ (called.Marks marksInside
      ∧ answers (execute (runHost (callClosure 1))) (called.swept marksInside) = true)
    ∧ (loaded.Marks marksInside
      ∧ answers (execute (runHost (callClosure 1))) (loaded.swept marksInside) = true)
    ∧ (loaded.frameDepth = 1 ∧ answered.frameDepth = 0 ∧ loaded.fetch = .ok (.ret1, none)
      ∧ loaded.stack.slots.toList.getLast? = some 5) := by
  rw [answered, loaded, called, caller, smallHeap_eq]
  decide +kernel

/-- The function is called and returns its argument. -/
theorem calls_match_caller : caller.Reachable ∧ CallsNext caller [0] [5] (.ofCode 2)
    ∧ advance 1 caller = .ok () called ∧ called.pc = 2
    ∧ called.heap.arrayElements called.locals = [0, 5]
    ∧ RunsAbove 0 called loaded ∧ advance 1 loaded = .ok () answered
    ∧ loaded.fetch = .ok (.ret1, none) ∧ GivesBack caller [0] 5 answered
    ∧ ((∃ e m', ret0 caller = .error e m') ↔ caller.frameDepth = 0) := by
  obtain ⟨⟨hfetch, hstack, hclosure, hcount, hidle, hnil⟩, h₁, h₂, h₃, hopen, hclosed, hret, hlast⟩ :=
    caller_evaluates
  have hm : caller.Reachable := .resting resting_caller
  have hn : CallsNext caller [0] [5] (.ofCode 2) :=
    ⟨hfetch, 6, 7, hstack, hclosure, 1, hcount, rfl⟩
  have s₁ : advance 1 caller = .ok () called := advance_of_marks h₁.1 h₁.2
  have s₂ : advance 1 called = .ok () loaded := advance_of_marks h₂.1 h₂.2
  have s₃ : advance 1 loaded = .ok () answered := advance_of_marks h₃.1 h₃.2
  obtain ⟨calls, fails⟩ := calls_match hm
  obtain ⟨hpc, hdepth, hlocals, -, returns⟩ := calls [0] [5] (.ofCode 2) 2 1 called hn rfl s₁
  rw [hidle] at hdepth returns
  have runs : RunsAbove 0 called loaded := .next (.here (by omega)) s₂ (by omega)
  obtain ⟨result, hresult, gives⟩ := returns loaded answered 1 runs s₃ hclosed.le
  have hresult : result = 5 := by
    rcases hresult with ⟨hf, -⟩ | ⟨-, hl⟩
    · rw [hret] at hf
      cases hf
    · rw [hlast] at hl
      exact (Option.some.inj hl).symm
  rw [hnil] at hlocals
  exact ⟨hm, hn, s₁, hpc, hlocals, runs, s₃, hret, hresult ▸ gives, fails⟩

end Machine

end SwarmVm
