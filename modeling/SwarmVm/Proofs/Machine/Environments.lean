import SwarmVm.Proofs.Machine.Courses
import SwarmVm.Proofs.Machine.Watched

/-!
# Captured environments

A closure that a script makes captures a copy of the locals, and a call starts with a copy of what
its closure has captured. Instructions write to the locals, and a return clears them. That nobody
notices rests on one fact: the activation records of the open calls are arrays of their own. They
differ from each other, no closure has captured one, and none of them is the default record, except
that a machine which was never given a script has that one for its locals.

So whatever a machine does, step by step and inside host functions as well, a closure keeps its
environment for as long as it is there: every call of it starts with the same locals.

## Main definitions

* `Machine.Secluded` — machines whose activation records are their own

## Main results

* `Machine.Secluded.passes`, `Machine.Runs.secluded` — the records stay apart, step by step
* `Machine.Runs.spares_closure` — what a closure has captured does not change
* `Machine.environments_immutable` — both together
-/

namespace SwarmVm

namespace Machine

open Heap (Captures Mints slotRef)

variable {F : Type} {collect : Action F Unit} {m m' : Machine F} {w : Ward} {l l' : Bool}
  {r d : Ref} {c : Closure}

/-! ### The records stay apart -/

/-- The activation records are arrays of their own, and the default record holds nil and nothing
else. Before there is a script, the lowest record may be the default record. -/
structure Secluded (l : Bool) (m : Machine F) : Prop where
  /-- The open calls form a chain. -/
  orderly : m.Orderly
  /-- The default record is in place. -/
  pristine : Pristine m.defaultRecord m
  /-- No closure has captured an activation record. -/
  records : ∀ r ∈ m.records, Apart (.record r) m
  /-- They are different arrays. -/
  distinct : m.records.Nodup
  /-- None of them is the default record, except for the lowest one -/
  upper : m.defaultRecord ∉ m.records.dropLast
  /-- before there is a script. -/
  started : l = true → m.defaultRecord ∉ m.records

namespace Secluded

theorem safe (hm : Secluded l m) (hr : r ∈ m.records) : Safe (.record r) m :=
  ⟨hm.records r hr, .inr (hm.orderly.held r hr)⟩

/-- Instructions are not executed with the default record for locals. -/
theorem locals_ne (hm : Secluded l m) (runs : 0 < m.frameDepth ∨ l = true) :
    m.locals ≠ m.defaultRecord := by
  intro he
  rcases runs with isOpen | hl
  · exact hm.upper (he ▸ locals_mem_dropLast isOpen)
  · exact hm.started hl (he ▸ locals_mem_records m)

/-- Nor with the record that a closure has captured. -/
theorem locals_ne_captured (hm : Secluded l m) (hs : Safe (.closure r c d) m)
    (runs : 0 < m.frameDepth ∨ l = true) : m.locals ≠ (Ward.closure r c d).ref := by
  have hv : m.heap.value r = .closure c := hs.ties
  have held : m.defaultRecord = d := hs.held
  rw [Ward.ref]
  cases hc : c.captured with
  | none =>
    rw [Option.getD_none, ← held]
    exact hm.locals_ne runs
  | some a =>
    rintro rfl
    exact (hm.records _ (locals_mem_records m)).ties.2 (Heap.captures_of_value hv hc)

/-- The records of a machine may get fewer. -/
theorem fewer (hm : Secluded l m) (orderly : m'.Orderly)
    (kept : Spared (m.defaultRecord : Ref) m m') (old : ∀ r ∈ m.records, Apart (.record r) m')
    (sub : m'.records.Sublist m.records) : Secluded l m' where
  orderly := orderly
  pristine := kept.core.record ▸ kept.pristine hm.pristine
  records r hr := old r (sub.subset hr)
  distinct := hm.distinct.sublist sub
  upper := by
    have lower := (List.reverse_sublist.2 sub).tail
    rw [List.tail_reverse, List.tail_reverse, List.reverse_sublist] at lower
    rw [kept.core.record]
    exact fun hd => hm.upper (lower.subset hd)
  started hl := by
    rw [kept.core.record]
    exact fun hd => hm.started hl (sub.subset hd)

/-- A new one may be put in front of them. -/
theorem more (hm : Secluded l m) (orderly : m'.Orderly)
    (kept : Spared (m.defaultRecord : Ref) m m') (old : ∀ r ∈ m.records, Apart (.record r) m')
    (hrecords : m'.records = m'.locals :: m.records) (fresh : Apart (.record m'.locals) m')
    (hnew : m'.locals ∉ m.records) (hdefault : m.defaultRecord ≠ m'.locals) : Secluded l m' where
  orderly := orderly
  pristine := kept.core.record ▸ kept.pristine hm.pristine
  records r hr := by
    rw [hrecords] at hr
    rcases List.mem_cons.1 hr with rfl | hr
    · exact fresh
    · exact old r hr
  distinct := by
    rw [hrecords]
    exact List.nodup_cons.2 ⟨hnew, hm.distinct⟩
  upper := by
    rw [hrecords, List.dropLast_cons_of_ne_nil (List.ne_nil_of_mem (locals_mem_records m)),
      kept.core.record, List.mem_cons, not_or]
    exact ⟨hdefault, hm.upper⟩
  started hl := by
    rw [hrecords, kept.core.record, List.mem_cons, not_or]
    exact ⟨hdefault, hm.started hl⟩

/-- A script may get one that is new. -/
theorem ready (hm : Secluded l m) (idle : m'.Idle) (kept : Spared (m.defaultRecord : Ref) m m')
    (free : m.heap.isValid m'.locals = false) (fresh : Apart (.record m'.locals) m') :
    Secluded true m' := by
  have hrecords := records_of_idle idle.frameDepth
  refine ⟨.idle idle, kept.core.record ▸ kept.pristine hm.pristine, fun r hr => ?_, ?_, ?_,
    fun _ => ?_⟩
  · rw [hrecords, List.mem_singleton] at hr
    exact hr ▸ fresh
  · rw [hrecords]
    exact List.nodup_singleton _
  · rw [hrecords]
    exact List.not_mem_nil
  · rw [hrecords, List.mem_singleton, kept.core.record]
    exact (ne_of_free hm.pristine.isValid free).symm

/-- **One step leaves the records apart,** if it is one for every array that is looked after. -/
theorem passes (hm : Secluded l m) (hp : ∀ w, w.Rooted → Safe w m → Passes w l m l' m') :
    Secluded l' m' := by
  have default := hp (m.defaultRecord : Ref) trivial hm.pristine.safe
  have kept := default.spared hm.locals_ne
  have old : ∀ r ∈ m.records, Apart (.record r) m' := fun r hr =>
    (hp (.record r) trivial (hm.safe hr)).minded.apart
  -- what the step does to the chain of calls can be read off from any one array
  cases hp (.record m.locals) trivial (hm.safe (locals_mem_records m)) with
  | cleared idle locals _ =>
    refine hm.fewer (.idle idle) kept old ?_
    rw [records_of_idle idle.frameDepth, locals]
    exact List.singleton_sublist.2 (locals_mem_records m)
  | ready idle free _ fresh => exact hm.ready idle kept free (fresh trivial)
  | strides st _ =>
    cases st with
    | within wi _ =>
      exact hm.fewer (hm.orderly.within wi) kept old (hm.orderly.records_within wi ▸ .refl _)
    | opened wi _ op floor top _ _ fresh =>
      obtain ⟨orderly, hrecords⟩ := (hm.orderly.within wi).opened op floor top
      rw [hm.orderly.records_within wi] at hrecords
      have hdepth : m'.frameDepth = m.frameDepth + 1 := by rw [op.frameDepth, wi.frameDepth]
      exact hm.more orderly kept old hrecords (fresh trivial)
        (fun hr => (hp (.record m'.locals) trivial (hm.safe hr)).locals_ne hdepth rfl)
        (default.locals_ne hdepth).symm
    | resumed re hdepth _ =>
      obtain ⟨orderly, hrecords⟩ := hm.orderly.resumed re hdepth
      exact hm.fewer orderly kept old (hrecords ▸ List.tail_sublist _)

end Secluded

/-! ### Runs -/

section Runs

variable [HostFunctions F]

theorem Runs.secluded (confined : Confined collect) (hx : ∀ w, w.Rooted → Shelters w collect)
    (run : Runs collect l m l' m') (hm : Secluded l m) : Secluded l' m' := by
  induction run with
  | refl => exact hm
  | next _ step ih =>
    exact ih.passes fun w hw hs =>
      step.passes confined (fun a => hx (.record a) trivial) (hx w hw) ih.orderly hs

/-- What a closure has captured does not change, as long as collections leave the closure. -/
theorem Runs.spares_closure (confined : Confined collect)
    (hx : ∀ w, w.Rooted → Shelters w collect) (hc : Shelters (.closure r c d) collect)
    (run : Runs collect l m l' m') (hm : Secluded l m) (hs : Safe (.closure r c d) m) :
    Spared (.closure r c d) m m' := by
  induction run with
  | refl => exact .refl hs.toApart
  | next run step ih =>
    have hm₁ := run.secluded confined hx hm
    have hs₁ : Safe (.closure r c d) _ := ⟨ih.apart, ih.core.record.trans hs.held⟩
    have ps := step.passes confined (fun a => hx (.record a) trivial) hc hm₁.orderly hs₁
    exact ih.trans (ps.spared (hm₁.locals_ne_captured hs₁))

end Runs

/-! ### New machines -/

/-- The heap is well formed, and no closure has captured anything. -/
structure Uncaptured (h : Heap) : Prop where
  /-- It is well formed. -/
  wellFormed : h.WellFormed
  /-- Nothing is captured. -/
  not_captures : ∀ a, ¬ h.Captures a

namespace Uncaptured

variable {h h' : Heap}

theorem mints (hu : Uncaptured h) (wf : h'.WellFormed) (mi : Mints ∅ h h') : Uncaptured h' :=
  ⟨wf, fun a => mi.not_captures (hu.not_captures a)⟩

theorem keep (hu : Uncaptured h) (r : Ref) :
    Ends (keep r) h (fun _ h' => Uncaptured h') fun _ _ => True :=
  ends_bind (ends_modify (Q := fun _ h' => Uncaptured h') (hu.mints
    (Heap.grows_setPermanent hu.wellFormed r true).wellFormed
    (Heap.mints_setPermanent hu.wellFormed r true))) fun _ _ hu' => ends_pure hu'

theorem tableNew (hu : Uncaptured h) :
    Ends Heap.tableNew h (fun _ h' => Uncaptured h') fun _ _ => True :=
  ((Heap.mints_allocTable hu.wellFormed).and (Heap.newObject_allocTable (A := Set.univ)
    hu.wellFormed)).imp (fun _ _ hn => hu.mints hn.2.1.evolves.wellFormed hn.1) fun _ _ _ => trivial

end Uncaptured

theorem uncaptured_make {size : Nat} (accepted : Heap.refusal? size = none) :
    Uncaptured (Heap.make size) := by
  refine ⟨(Heap.wellFormed_make accepted).1, ?_⟩
  rintro a ⟨r, hr⟩
  obtain ⟨c, hv, -⟩ := Heap.exists_closure_of_captured? hr
  have valid := (Heap.kind_of_value hv (by simp)).1
  rw [(Heap.not_isValid_make size r).1] at valid
  cases valid

/-- There are no closures at the start. -/
theorem uncaptured_coreObjects {size : Nat} (accepted : Heap.refusal? size = none) :
    Ends coreObjects (Heap.make size) (fun _ h => Uncaptured h) fun _ _ => True := by
  have hu := uncaptured_make accepted
  have nil : Ends (Heap.allocValue .nil) (Heap.make size) (fun _ h => Uncaptured h)
      fun _ _ => True :=
    ((Heap.mints_allocValue hu.wellFormed fun a ha => by cases ha).and (Heap.grows_allocValue
      hu.wellFormed (by simp))).imp (fun _ _ hn => hu.mints hn.2.1.wellFormed hn.1)
      fun _ _ _ => trivial
  refine ends_bind nil fun nil h₁ hu₁ => ends_bind (hu₁.keep nil) fun _ h₂ hu₂ => ?_
  refine ends_bind (((Heap.mints_arrayNew (S := ∅) hu₂.wellFormed).and (Heap.newObject_arrayNew
    (A := Set.univ) hu₂.wellFormed)).imp (fun _ _ => id) fun _ _ _ => trivial) fun record h₃ h => ?_
  obtain ⟨⟨mi, hr⟩, n, -⟩ := h
  have hu₃ := hu₂.mints n.evolves.wellFormed mi
  refine ends_bind (((Heap.sameObjects_arrayPush hu₃.wellFormed (fun _ => hr.1) _).and
    (Heap.evolves_arrayPush (A := Set.univ) hu₃.wellFormed (fun _ => hr.1)
      (Set.mem_univ _))).imp (fun _ _ => id) fun _ _ _ => trivial) fun _ h₄ h => ?_
  obtain ⟨same, ev⟩ := h
  have hu₄ := hu₃.mints ev.wellFormed same.resembles.mints
  exact ends_bind (hu₄.keep record) fun _ _ hu₅ => ends_bind hu₅.tableNew fun globals _ hu₆ =>
    ends_bind (hu₆.keep globals) fun _ _ hu₇ => ends_bind hu₇.tableNew fun listeners _ hu₈ =>
      ends_bind (hu₈.keep listeners) fun _ _ hu₉ => ends_pure hu₉

/-- The only record of a new machine is the default record. -/
theorem secluded_blank {s : Settings} {nil record globals listeners : Ref} {heap : Heap}
    (hs : s.stackSize ≤ 65535) (accepted : Heap.refusal? s.heapSize = none)
    (hc : coreObjects (Heap.make s.heapSize) = .ok (nil, record, globals, listeners) heap) :
    Secluded false (blank s nil record globals listeners heap : Machine F) := by
  have pristine := pristine_blank (F := F) accepted hc
  have none := ((uncaptured_coreObjects accepted).of_ok hc).not_captures
  have apart : Apart (.record record) (blank s nil record globals listeners heap : Machine F) :=
    ⟨pristine.isRecord, pristine.globals, pristine.listeners, pristine.tables,
      ⟨fun a ha => absurd ha (none a), none record⟩, fun _ t _ => none t⟩
  refine ⟨.idle (idle_blank accepted hc hs), pristine, fun r hr => ?_, List.nodup_singleton _,
    List.not_mem_nil, fun hl => by cases hl⟩
  exact List.mem_singleton.1 hr ▸ apart

/-! ### Closures that are watched -/

theorem Shelters.watch (hx : Shelters w collect) (r : Ref) : Shelters w (watch collect r) := by
  intro m hm hs
  rw [ends_iff, Machine.watch]
  cases hc : collect m with
  | error e m' => exact (hx m hm hs).of_error hc
  | ok u m' =>
    by_cases hv : m'.heap.isValid r = true
    · simp only [hv, if_true]
      exact (hx m hm hs).of_ok hc
    · simp only [hv]
      exact ⟨.refl hm, .refl hs.toApart⟩

/-- A collection that leaves a closure leaves what calls of it start with. -/
theorem shelters_watch_closure :
    Shelters (.closure r c d) (watch collectGarbage r : Action F Unit) := by
  refine (confined_collectGarbage.watch r).shelters fun m hm hs => ?_
  rw [ends_iff, Machine.watch]
  cases hc : collectGarbage m with
  | error e m' =>
    obtain ⟨-, rfl⟩ := ends_collectGarbage.of_error hc
    exact .refl hs.toApart
  | ok u m' =>
    obtain ⟨log, rfl⟩ := ends_collectGarbage.of_ok hc
    by_cases hv : (m.heap.collect (m.stack.slots.toList ++ m.ambient)).2.isValid r = true
    · simp only [hv, if_true]
      refine ⟨hs.toApart.spared ⟨rfl, rfl, rfl, rfl⟩ (hs.leaves_collect hm ?_), trivial⟩
      rintro _ _ _ ⟨⟩
      exact hv
    · simp only [hv]
      exact .refl hs.toApart

/-- What calls of a closure start with is looked after. -/
theorem Secluded.safe_closure (hm : Secluded l m) (hv : m.heap.value r = .closure c) :
    Safe (.closure r c m.defaultRecord) m := by
  have default := hm.pristine.toApart
  have locals := hm.records _ (locals_mem_records m)
  have facts : m.heap.IsRecord (c.captured.getD m.defaultRecord)
      ∧ ∀ t, t = m.globals ∨ t = m.listeners → t ≠ c.captured.getD m.defaultRecord := by
    cases hc : c.captured with
    | none =>
      refine ⟨default.isRecord, ?_⟩
      rintro t (rfl | rfl)
      · exact default.globals
      · exact default.listeners
    | some a =>
      have captured := Heap.captures_of_value hv hc
      refine ⟨locals.ties.1 a captured, ?_⟩
      rintro t ht rfl
      exact locals.uncaptured trivial _ ht captured
  exact ⟨⟨facts.1, facts.2 _ (.inl rfl), facts.2 _ (.inr rfl), locals.tables, hv,
    fun hw => hw.elim⟩, rfl⟩

section Immutable

variable [HostFunctions F]

theorem Attained.secluded (hm : Attained l m) : Secluded l m := by
  cases hm with
  | of_runs hs accepted hc run =>
    exact run.secluded confined_collectGarbage (fun _ hw => shelters_collectGarbage hw)
      (secluded_blank hs accepted hc)

/-- **Captured environments do not change.** Whatever has happened to a machine with depths that fit
in sixteen bits and without functions of the embedder:

* the current activation record and those that the open calls have saved are different arrays, no
  closure has captured one of them, and since the machine was given a script none of them is the
  default record;
* the default record holds nil and nothing else;
* as long as no collection takes a closure, whatever happens, the array that calls of it start with
  is the same and holds the same, so that every call of it starts with a copy of what it holds now,
  followed by the arguments; and no collection takes a closure that can be reached.

Every request of host code leads to such a machine again (`Settled.served`). -/
theorem environments_immutable (hm : Attained l m) :
    (m.records.Nodup ∧ ∀ a ∈ m.records, m.heap.IsRecord a ∧ ¬ m.heap.Captures a)
    ∧ (l = true → m.defaultRecord ∉ m.records)
    ∧ m.heap.arrayElements m.defaultRecord = [m.nil]
    ∧ ∀ r c, m.heap.value r = .closure c →
      ∀ l' m', Runs (watch collectGarbage r) l m l' m' →
        m'.heap.value r = .closure c
        ∧ (m'.heap.Reachable (m'.stack.slots.toList ++ m'.ambient) r →
          watch collectGarbage r m' = collectGarbage m')
        ∧ c.captured.getD m'.defaultRecord = c.captured.getD m.defaultRecord
        ∧ m'.heap.arrayElements (c.captured.getD m'.defaultRecord)
          = m.heap.arrayElements (c.captured.getD m.defaultRecord)
        ∧ ∀ target m'', m'.stack.slots.getD (m'.stack.depth - 1) 0 = r →
          enter m' = .ok target m'' → ∃ argc, m'.Operands argc
            ∧ m''.heap.arrayElements m''.locals
              = m.heap.arrayElements (c.captured.getD m.defaultRecord)
                ++ (m'.arguments argc).map slotRef := by
  have hg := hm.secluded
  refine ⟨⟨hg.distinct, fun a ha => ?_⟩, hg.started, hg.pristine.elements,
    fun r c hv l' m' run => ?_⟩
  · exact ⟨(hg.records a ha).isRecord, (hg.records a ha).ties.2⟩
  have rooted := fun (w : Ward) (hw : w.Rooted) =>
    (shelters_collectGarbage (F := F) hw).watch r
  have confined := (confined_collectGarbage (F := F)).watch r
  have sp := run.spares_closure confined rooted shelters_watch_closure hg (hg.safe_closure hv)
  have hv' : m'.heap.value r = .closure c := sp.apart.ties
  have record := sp.core.record
  have elements : m'.heap.arrayElements (c.captured.getD m.defaultRecord)
      = m.heap.arrayElements (c.captured.getD m.defaultRecord) := sp.elements
  have standard := (run.secluded confined rooted hg).orderly.standard
  rw [record]
  have valid : m'.heap.isValid r = true := by
    by_contra hn
    rw [Heap.value_of_not_isValid (Bool.not_eq_true _ ▸ hn)] at hv'
    cases hv'
  refine ⟨hv', watch_eq_of_reachable standard valid, rfl, elements,
    fun target m'' htop henter => ?_⟩
  obtain ⟨c', argc, htop', -, operands, begun⟩ := (begun_enter standard.toSound).of_ok henter
  rw [htop] at htop'
  cases hv'.symm.trans htop'
  exact ⟨argc, operands, begun.holds.arrayElements.trans (by rw [record, elements])⟩

/-- Host code that is looked at as soon as it calls back. -/
def pausing : Caller F := fun _ _ => throw .outOfFuel

/-- One instruction, without a collection. -/
def executed (m : Machine F) : Machine F := stateAfter (execute (runHost pausing)) m

theorem advances_executed (m : Machine F) : Advances collect true m true m.executed := by
  have hcall : Pausing collect 0 (pausing : Caller F) := fun _ _ _ => .inr rfl
  exact .execute (.inr rfl) hcall

end Immutable

/-- An image with a script that makes a function and then stores 7 in its own first local. The
function answers its first local. -/
def overwriting : List UInt8 := [0, 0, Opcode.nop.byte, Opcode.pushLambda.byte, 10, 0,
  Opcode.pushInt.byte, 7, 0, Opcode.storeLocal.byte, 0, 0, Opcode.loadLocal.byte, 0, 0,
  Opcode.ret1.byte]

/-- The machine before the script, -/
def prepared : Machine Empty :=
  stateAfter (load 1 overwriting) (blank { heapSize := 192 } 0 1 2 3 smallHeap)

/-- after the function is made, -/
def capturing : Machine Empty := prepared.executed

/-- and after the local is stored, with the operands of a call of the function on the stack. -/
def overwritten : Machine Empty := stateAfter (pushOperands 6 []) capturing.executed.executed

theorem overwritten_evaluates : prepared.state = .ready
    ∧ capturing.heap.value 6 = .closure ⟨.code 10, some 5⟩
    ∧ capturing.heap.arrayElements capturing.locals = [0]
    ∧ capturing.heap.arrayElements 5 = [0]
    ∧ overwritten.heap.arrayElements overwritten.locals = [7]
    ∧ overwritten.stack.slots.getD (overwritten.stack.depth - 1) 0 = 6
    ∧ overwritten.value (overwritten.stack.slots.getD (overwritten.stack.depth - 2) 0) = .int 0
    ∧ answers enter overwritten = true := by
  rw [overwritten, capturing, prepared, smallHeap_eq]
  decide +kernel

theorem attained_capturing : Attained true capturing := by
  have blank : Settled false (blank { heapSize := 192 } 0 1 2 3 smallHeap : Machine Empty) :=
    ⟨.of_runs (s := { heapSize := 192 }) (by decide) (by decide) coreObjects_small .refl,
      fun _ => rfl⟩
  obtain ⟨l, loaded⟩ := blank.served 1 (q := .load overwriting) trivial
  have served : stateAfter (Request.perform 1 (.load overwriting)) _ = prepared :=
    stateAfter_discard (load 1 overwriting) _
  rw [served] at loaded
  cases l with
  | true => exact loaded.attained.advances (advances_executed prepared)
  | false => cases overwritten_evaluates.1.symm.trans (loaded.state rfl)

/-- The function that the script makes starts with nil, before and after the script has stored
another value in the local that it was made from. -/
theorem environments_immutable_overwritten : Attained true capturing
    ∧ capturing.heap.value 6 = .closure ⟨.code 10, some 5⟩
    ∧ Runs (watch collectGarbage 6) true capturing true overwritten
    ∧ capturing.locals ∉ [capturing.defaultRecord, 5]
    ∧ capturing.heap.arrayElements capturing.locals = [0]
    ∧ overwritten.heap.arrayElements overwritten.locals = [7]
    ∧ overwritten.heap.arrayElements 5 = [0]
    ∧ ∃ target m, enter overwritten = .ok target m ∧ m.heap.arrayElements m.locals = [0] := by
  obtain ⟨-, hclosure, hlocals, hcaptured, hstored, htop, hcount, henter⟩ :=
    overwritten_evaluates
  have stored : Runs (watch collectGarbage 6) true capturing true capturing.executed.executed :=
    (Runs.refl.next (advances_executed _)).next (advances_executed _)
  have run := stored.next (.chore (.operands 6 []))
  obtain ⟨⟨-, records⟩, started, -, calls⟩ := environments_immutable attained_capturing
  obtain ⟨-, -, -, elements, starts⟩ := calls 6 _ hclosure true overwritten run
  refine ⟨attained_capturing, hclosure, run, ?_, hlocals, hstored, elements.trans hcaptured, ?_⟩
  · rw [List.mem_cons, List.mem_singleton, not_or]
    exact ⟨fun he => started rfl (he ▸ locals_mem_records _), fun he =>
      (records 5 (he ▸ locals_mem_records _)).2 (Heap.captures_of_value hclosure rfl)⟩
  · rw [answers] at henter
    cases hm : enter overwritten with
    | error e m =>
      rw [hm] at henter
      cases henter
    | ok target m =>
      obtain ⟨argc, ⟨⟨i, hi, hargc⟩, -⟩, start⟩ := starts target m htop hm
      cases hcount.symm.trans hi
      obtain rfl : argc = 0 := by simpa using hargc.symm
      exact ⟨target, m, rfl, start.trans (by rw [Option.getD_some, hcaptured]; rfl)⟩

end Machine

end SwarmVm
