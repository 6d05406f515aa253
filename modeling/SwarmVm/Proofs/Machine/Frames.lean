import SwarmVm.Proofs.Machine.Lasting

/-!
# Calls inside a call

A machine that is inside a call may make further calls, which may make calls in turn. Each leaves
its bookkeeping on the stack, right above the part that its caller uses, so that the callers that
wait form a chain down to the one that made the first call. The chain is kept by every instruction:
work inside the innermost call does not reach down to it, a call makes it longer by one, and a
return takes its first link off. When the last link is taken off, the first call has returned.

The bookkeeping consists of objects of the heap, and a collection takes place before every
instruction. It keeps them, because they are on the stack.

## Main definitions

* `Waiting` — the chain of the callers that wait
* `Machine.InCall` — a machine inside a call that another machine has made
* `Machine.Regime` — what an instruction makes of a machine

## Main results

* `Machine.Regime.ends_execute` — an instruction
* `Machine.regime_inCall` — the chain is kept until the first call has returned
-/

namespace SwarmVm

/-! ### The chain -/

/-- The caller `c` was called by the first of `sites`, that one by the next, and so on: the
bookkeeping of each is where the floor of the one above it says, and the activation records are
there. -/
def Waiting (h : Heap) (slots : Array Ref) : Site → List Site → Prop
  | _, [] => True
  | c, c' :: rest => c.base = c'.depth + 3 ∧ c'.Saved h slots ∧ h.IsTable c.locals
    ∧ Waiting h slots c' rest

namespace Waiting

variable {h h' : Heap} {slots slots' : Array Ref}

/-- The chain is below the floor of the uppermost caller. -/
theorem mono : ∀ {sites : List Site} {c : Site}, Waiting h slots c sites →
    (∀ i < c.base, slots'[i]? = slots[i]?) →
    (∀ i < c.base, ∀ r, slots[i]? = some r → h.Stays h' r) → h.Stays h' c.locals →
    Waiting h' slots' c sites
  | [], _, _, _, _, _ => trivial
  | c' :: rest, c, ⟨hbase, hsaved, hlocals, w⟩, same, stays, hl => by
    have hfloor := hsaved.floor
    refine ⟨hbase, ?_, hl.isTable hlocals, ?_⟩
    · exact hsaved.mono (fun i hi => same i (by omega)) fun i hi => stays i (by omega)
    · refine w.mono (fun i hi => same i (by omega)) (fun i hi => stays i (by omega)) ?_
      exact stays (c'.depth + 1) (by omega) _ hsaved.locals

/-- The last caller of the chain has its bookkeeping on the stack like all others. -/
theorem bottom : ∀ {sites : List Site} {c c₀ : Site}, Waiting h slots c sites → c.Saved h slots →
    (c :: sites).getLast? = some c₀ → c₀.Saved h slots ∧ c₀.depth ≤ c.depth
  | [], c, c₀, _, hsaved, hlast => by
    rw [List.getLast?_singleton, Option.some.injEq] at hlast
    exact hlast ▸ ⟨hsaved, le_rfl⟩
  | c' :: rest, c, c₀, ⟨hbase, hsaved', _, w⟩, hsaved, hlast => by
    rw [List.getLast?_cons_cons] at hlast
    obtain ⟨h₀, hle⟩ := w.bottom hsaved' hlast
    have hfloor := hsaved.floor
    exact ⟨h₀, by omega⟩

end Waiting

namespace Machine

variable {F α : Type} {entry m m' : Machine F} {c c' : Site} {sites : List Site} {d : Nat}

/-! ### Machines inside a call -/

/-- The machine `m` has come from `entry` by a call, which has not returned yet. The current call
was made by `c`, and `sites` are the callers below it, the last one being `entry` itself. -/
structure InCall (entry : Machine F) (c : Site) (sites : List Site) (m : Machine F) : Prop
    extends Kept entry.stack.depth entry m where
  /-- The current call is one by `c`. -/
  called : Called c m
  /-- The others wait. -/
  waiting : Waiting m.heap m.stack.slots c sites
  /-- The last one is `entry`. -/
  bottom : (c :: sites).getLast? = some (entry.siteAt entry.stack.depth)
  /-- All calls since `entry` are in the chain. -/
  frameDepth : m.frameDepth = entry.frameDepth + (sites.length + 1)

/-- A call that has just been opened. -/
theorem Opened.inCall (op : Opened entry.stack.depth entry m) :
    InCall entry (entry.siteAt entry.stack.depth) [] m where
  toKept := op.toKept
  called := op.called
  waiting := trivial
  bottom := rfl
  frameDepth := op.frameDepth

namespace InCall

/-- The stack below the floor holds what `entry` needs. -/
theorem heldBelow (ic : InCall entry c sites m) :
    entry.stack.depth ≤ m.stack.base ∧ ∀ r, HeldBelow entry.stack.depth entry r ∨ r = entry.locals →
      HeldBelow m.stack.base m r := by
  have hbase := ic.called.base
  obtain ⟨hsaved, hle⟩ := ic.waiting.bottom ic.called.saved ic.bottom
  have hle : entry.stack.depth ≤ c.depth := hle
  refine ⟨by omega, fun r hr => ?_⟩
  rcases hr with hr | rfl
  · exact (ic.toAgrees.heldBelow hr).mono (by omega)
  · exact ⟨entry.stack.depth + 1, by omega, hsaved.locals⟩

theorem within (ic : InCall entry c sites m) (w : Within m m') : InCall entry c sites m' := by
  have hbase := ic.called.base
  have hfloor := ic.called.saved.floor
  obtain ⟨hle, held⟩ := ic.heldBelow
  refine ⟨⟨ic.toAgrees.trans (w.toAgrees.mono hle),
    fun r hr => (ic.stays r hr).trans (w.stays r (.inl (held r hr)))⟩, ic.called.within w, ?_,
    ic.bottom, w.frameDepth.trans ic.frameDepth⟩
  refine ic.waiting.mono (fun i hi => w.slots i (by omega))
    (fun i hi r hr => w.stays r (.inl ⟨i, by omega, hr⟩)) ?_
  exact w.stays _ (.inl ⟨c.depth + 1, by omega, ic.called.saved.locals⟩)

/-- A further call makes the chain longer. -/
theorem opened (ic : InCall entry c sites m) (op : Opened d m m') (hd : m.stack.base ≤ d) :
    InCall entry (m.siteAt d) (c :: sites) m' := by
  have hbase := ic.called.base
  have hfloor := ic.called.saved.floor
  obtain ⟨hle, held⟩ := ic.heldBelow
  have stays : ∀ r, HeldBelow m.stack.base m r → m.heap.Stays m'.heap r := by
    intro r hr
    exact op.stays r (.inl (hr.mono hd))
  refine ⟨⟨ic.toAgrees.trans (op.toAgrees.mono (hle.trans hd)),
    fun r hr => (ic.stays r hr).trans (stays r (held r hr))⟩, op.called, ⟨hbase, ?_, ?_, ?_⟩,
    ?_, ?_⟩
  · exact ic.called.saved.mono (fun i hi => op.slots i (by omega))
      fun i hi r hr => stays r ⟨i, by omega, hr⟩
  · exact (op.stays m.locals (.inr rfl)).isTable ic.called.locals
  · refine ic.waiting.mono (fun i hi => op.slots i (by omega))
      (fun i hi r hr => stays r ⟨i, by omega, hr⟩) ?_
    exact stays _ ⟨c.depth + 1, by omega, ic.called.saved.locals⟩
  · rw [List.getLast?_cons_cons]
    exact ic.bottom
  · rw [op.frameDepth, ic.frameDepth, List.length_cons]
    omega

/-- A return to a caller of the chain takes it off. -/
theorem resumed (ic : InCall entry c (c' :: sites) m) (re : Resumed c m m') :
    InCall entry c' sites m' := by
  have hbase := ic.called.base
  have hfloor := ic.called.saved.floor
  obtain ⟨hbase', hsaved, hlocals, w⟩ := ic.waiting
  have hfloor' := hsaved.floor
  obtain ⟨hle, held⟩ := ic.heldBelow
  have hsite : entry.stack.depth ≤ c.depth := (ic.waiting.bottom ic.called.saved ic.bottom).2
  have hdepth := ic.frameDepth
  rw [List.length_cons] at hdepth
  have hdepth' := re.frameDepth
  have stays : ∀ i < c.depth + 3, ∀ r, m.stack.slots[i]? = some r → m.heap.Stays m'.heap r :=
    fun i hi r hr => re.stays r ⟨i, by omega, hr⟩
  refine ⟨⟨ic.toAgrees.trans (re.toAgrees.mono hsite),
    fun r hr => (ic.stays r hr).trans (re.stays r (held r hr))⟩,
    ⟨re.standard, ?_, ?_, ?_, by omega⟩, ?_, ?_, by omega⟩
  · rw [re.base, hbase']
  · exact hsaved.mono (fun i hi => re.slots i (by omega)) fun i hi => stays i (by omega)
  · rw [re.locals]
    exact (stays (c.depth + 1) (by omega) _ ic.called.saved.locals).isTable hlocals
  · refine w.mono (fun i hi => re.slots i (by omega)) (fun i hi => stays i (by omega)) ?_
    exact stays (c'.depth + 1) (by omega) _ hsaved.locals
  · have hlast := ic.bottom
    rwa [List.getLast?_cons_cons] at hlast

/-- A return to the last caller of the chain is the return to `entry`. -/
theorem returned (ic : InCall entry c [] m) (re : Resumed c m m') :
    Returned entry.stack.depth entry m' := by
  obtain ⟨_, held⟩ := ic.heldBelow
  have hc : c = entry.siteAt entry.stack.depth := by
    have hlast := ic.bottom
    rwa [List.getLast?_singleton, Option.some.injEq] at hlast
  subst hc
  have hdepth := ic.frameDepth
  have hdepth' := re.frameDepth
  rw [List.length_nil] at hdepth
  exact ⟨⟨ic.toAgrees.trans re.toAgrees,
    fun r hr => (ic.stays r hr).trans (re.stays r (held r hr))⟩, re.depth, re.base, re.locals,
    re.pc, by omega⟩

end InCall

/-! ### Instructions -/

/-- What an instruction makes of a machine of which `K` holds: one of which `L` holds. Most
instructions are work inside the current call, which keeps `K` as long as it keeps `I`; calls and
returns may go further. -/
structure Regime (I K L : Machine F → Prop) : Prop where
  /-- The machine is standard. -/
  standard : ∀ {m}, K m → m.Standard
  /-- The condition holds of it. -/
  holds : ∀ {m}, K m → I m
  /-- Work inside the call keeps it as it is. -/
  within : ∀ {m m'}, K m → Within m m' → I m' → K m'
  /-- A machine may be left as it is. -/
  settled : ∀ {m}, K m → L m
  /-- Calls, -/
  afterCall : ∀ {m m'}, K m → AfterCall m m' → I m' → L m'
  /-- and returns. -/
  leaveFrame : ∀ {m} (result : Option Ref), K m → Ends (leaveFrame result) m (fun _ m' => L m')
    fun _ m' => L m'

namespace Regime

variable {I K L : Machine F → Prop} [Lasting I] (rg : Regime I K L)
  {host : UInt16 → Action F Unit} (hhost : ∀ id, Finishes I (host id))

include rg

omit [Lasting I] in
theorem ends_upholds {x : Action F α} (hx : Upholds I x) (hm : K m) :
    Ends x m (fun _ m' => K m') fun _ m' => L m' :=
  (hx m (rg.standard hm) (rg.holds hm)).imp (fun _ _ h => rg.within hm h.1 h.2)
    fun _ _ h => rg.settled (rg.within hm h.1 h.2)

theorem ends_ret1 (hm : K m) : Ends ret1 m (fun _ m' => L m') fun _ m' => L m' :=
  ends_get_bind (ends_bind (rg.ends_upholds (upholds_of_yields yields_require) hm) fun _ _ hm₁ =>
    ends_bind (rg.ends_upholds (upholds_of_yields yields_pop) hm₁) fun r _ hm₂ =>
      rg.leaveFrame (some r) hm₂)

include hhost

theorem ends_perform {op : Opcode} {operand : UInt16} (hm : K m) :
    Ends (perform host op operand) m (fun _ m' => L m') fun _ m' => L m' := by
  by_cases hop : op.switchesFrame = false
  · have hx : Upholds I (perform host op operand) := upholds_of_yields fun hm =>
      yields_perform Heap.reliance_arbitrary hm hop
    exact (rg.ends_upholds hx hm).imp (fun _ _ h => rg.settled h) fun _ _ => id
  cases op with
  | call =>
    exact (ends_call (rg.standard hm) (rg.holds hm) hhost).imp
      (fun _ _ h => rg.afterCall hm (.inr h.1) h.2) fun _ _ h => rg.afterCall hm h.1 h.2
  | ret0 => exact rg.leaveFrame none hm
  | ret1 => exact rg.ends_ret1 hm
  | _ => exact absurd rfl hop

theorem ends_execute (hm : K m) :
    Ends (execute host) m (fun _ m' => L m') fun _ m' => L m' := by
  refine ends_get_bind ?_
  cases hf : m.fetch with
  | error e => exact ends_throw (rg.settled hm)
  | ok p =>
    obtain ⟨op, operand⟩ := p
    refine ends_get_bind (ends_bind (rg.ends_upholds (upholds_of_yields yields_emit) hm)
      fun _ m₁ hm₁ => ?_)
    split
    · exact (rg.ends_upholds (upholds_modify fun _ => rfl) hm₁).imp (fun _ _ h => rg.settled h)
        fun _ _ => id
    · exact ends_bind (rg.ends_upholds (upholds_modify fun _ => rfl) hm₁)
        fun _ m₂ hm₂ => rg.ends_perform hhost hm₂

end Regime

/-- The call from `entry` is still going on, or it has returned. -/
def Progress (entry m : Machine F) : Prop :=
  (∃ c sites, InCall entry c sites m) ∨ Returned entry.stack.depth entry m

theorem Progress.kept (pr : Progress entry m) : Kept entry.stack.depth entry m := by
  rcases pr with ⟨c, sites, ic⟩ | re
  · exact ic.toKept
  · exact re.toKept

/-- A call of a host function that has returned was work inside the caller. -/
theorem Returned.within (re : Returned d m m') (hd : m.stack.base ≤ d) : Within m m' where
  toKept := re.toKept.mono hd
  base := re.base
  locals := re.locals
  frameDepth := re.frameDepth

/-- The operands of a call are in the part of the stack that the caller may use. -/
theorem Operands.base_le {argc : Nat} (hargs : m.Operands argc) :
    m.stack.base ≤ m.stack.depth - argc - 2 := by
  have := hargs.2
  rw [OperandStack.frameLength] at this
  omega

/-- An instruction goes on with the call or returns from it. -/
theorem regime_inCall (I : Machine F → Prop) [Lasting I] (entry : Machine F) :
    Regime I (fun m => (∃ c sites, InCall entry c sites m) ∧ I m)
      fun m => Progress entry m ∧ I m where
  standard := fun ⟨⟨_, _, ic⟩, _⟩ => ic.standard
  holds := fun hm => hm.2
  within := fun ⟨⟨c, sites, ic⟩, _⟩ w hi => ⟨⟨c, sites, ic.within w⟩, hi⟩
  settled := fun ⟨ic, hi⟩ => ⟨.inl ic, hi⟩
  afterCall := by
    rintro m m' ⟨⟨c, sites, ic⟩, -⟩ (st | ⟨argc, hargs, op | re⟩) hi
    · exact ⟨.inl ⟨c, sites, ic.within (st.toSteady.within ic.standard)⟩, hi⟩
    · exact ⟨.inl ⟨_, _, ic.opened op hargs.base_le⟩, hi⟩
    · exact ⟨.inl ⟨c, sites, ic.within (re.within hargs.base_le)⟩, hi⟩
  leaveFrame := by
    rintro m result ⟨⟨c, sites, ic⟩, hi⟩
    refine (finishes_leaveFrame result c m ic.called hi).imp (fun _ m' h => ⟨?_, h.2⟩)
      fun _ _ h => ⟨.inl ⟨c, sites, ic.within h.1⟩, h.2⟩
    cases sites with
    | nil => exact .inr (ic.returned h.1)
    | cons c' rest => exact .inl ⟨c', rest, ic.resumed h.1⟩

end Machine

end SwarmVm
