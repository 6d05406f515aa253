import SwarmVm.Proofs.Machine.Fields
import SwarmVm.Proofs.Neighbors.Iteration
import SwarmVm.Proofs.Stigmergy.Receiving

/-!
# Records that come back

A script that settles conflicts is shown both versions as tables with three fields, and answers
one of them. What it is shown is `Update.fields`: the robot as a number of sixteen bits with a sign,
the value, which is a field that is not there if it is nil, and the clock. The table is read back
with a check that the robot is not negative. So a version makes the way into a table and back if its
robot is in the lower half (`Machine.ends_versionTable`, `Machine.ends_readVersion`), whatever its
clock and its value.

A conflict is then settled in two parts. The script is asked with two records that have the fields
of the two versions, and may do what it likes as long as it answers one of them unchanged and leaves
the entry where it is. After that its choice is stored, and sent once. Only the heap or the stack
may run out on the way.

## Main definitions

* `Update.fields` — an update as the script sees it
* `Machine.present`, `Machine.arbitrate`, `Machine.adopt` — what is done before the script is asked,
  until its answer has been read, and before it is told of a loss
* `Machine.Chooses` — the script answers one of the two records unchanged
* `Machine.answersRecord` — how a call that does so is recognised

## Main results

* `Machine.ends_readVersion` — what comes back
* `Machine.adopts_choice` — the choice of the script is adopted
* `Machine.refuses_record` — a choice that is not
-/

namespace SwarmVm

theorem Clock.isNewer_self (c : UInt8) : isNewer c c = false := by
  rw [Bool.eq_false_iff, Ne, isNewer_iff]
  omega

/-! ### Records -/

/-- A robot as a number of the script: from the middle on, robots are negative. -/
theorem toInt_toInt16 (robot : RobotId) : robot.toInt16.toInt
    = if robot.toNat < 2 ^ 15 then (robot.toNat : Int) else robot.toNat - 2 ^ 16 := by
  have hlt := robot.toNat_lt
  have htoInt : robot.toInt16.toInt = robot.toBitVec.toInt := rfl
  have hnat : robot.toBitVec.toNat = robot.toNat := rfl
  rw [htoInt, BitVec.toInt_eq_toNat_cond, hnat]
  split <;> split <;> omega

namespace Update

/-- An update as the script sees it: what it has under the names. -/
def fields (u : Update) : NameId → Value :=
  Function.update (Function.update (Function.update (fun _ => .nil) Builtin.robot.nameId
    (.int u.robot.toInt16)) Builtin.data.nameId u.value) Builtin.timestamp.nameId
    (.int (Int16.ofNat u.clock.toNat))

variable (u : Update)

@[simp] theorem fields_robot : u.fields Builtin.robot.nameId = .int u.robot.toInt16 := rfl

@[simp] theorem fields_data : u.fields Builtin.data.nameId = u.value := rfl

@[simp] theorem fields_timestamp :
    u.fields Builtin.timestamp.nameId = .int (Int16.ofNat u.clock.toNat) := rfl

end Update

namespace Machine

open Heap (Grows Unaltered)

variable {F α : Type} {m m₁ m' : Machine F} {call : Caller F} {op : StigmergyOp} {key : NameId}
  {here there v : Version} {p : Nat} {t r callback : Ref} {u : Update} {e : StigmergyEntry}

theorem Expands.update (x : Expands m m') (hv : m.heap.isValid v.value = true) :
    m'.update v = m.update v := update_of_grows x.grows hv

/-- A version is written to a table. -/
theorem ends_versionTable (wf : m.heap.WellFormed) (tidy : m.heap.Tidy) (v : Version) :
    Ends (versionTable v) m (fun t m' => Drafts m t m' ∧ (m.heap.isValid v.value = true →
      m'.heap.Fielded t ∧ m'.heap.fieldNamed t = (m.update v).fields))
      fun e _ => e = .fault .outOfMemory := by
  have scalar : ∀ {t m₁ m₂ i r}, Drafts m t m₁ → Expands m₁ m₂ ∧ m₂.value r = Value.int i →
      Drafts m t m₂ ∧ m₂.heap.isValid r = true ∧ r ≠ t := fun d h =>
    ⟨d.expands h.1, (Heap.kind_of_value h.2 (by simp)).1, (d.expands h.1).ne_of_value h.2 (by simp)⟩
  refine ends_bind (ends_tableNew wf) fun t m₁ h₁ => ?_
  obtain ⟨d₁, ft₁, hf₁⟩ := h₁
  refine ends_bind (ends_alloc d₁.grows.wellFormed (by simp) (by simp)) fun robot m₂ h₂ => ?_
  obtain ⟨d₂, hrobot, hne₂⟩ := scalar d₁ h₂
  obtain ⟨ft₂, hf₂⟩ := ft₁.grows h₂.1.grows
  refine ends_bind (d₂.setField tidy _ robot) fun _ m₃ h₃ => ?_
  obtain ⟨d₃, h₃⟩ := h₃
  obtain ⟨ft₃, hf₃⟩ := h₃ ft₂ hrobot hne₂
  refine ends_bind (d₃.setField tidy _ v.value) fun _ m₄ h₄ => ?_
  obtain ⟨d₄, h₄⟩ := h₄
  refine ends_bind (ends_alloc d₄.grows.wellFormed (by simp) (by simp)) fun clock m₅ h₅ => ?_
  obtain ⟨d₅, hclock, hne₅⟩ := scalar d₄ h₅
  refine ends_bind (d₅.setField tidy _ clock) fun _ m₆ h₆ => ends_pure ?_
  obtain ⟨d₆, h₆⟩ := h₆
  refine ⟨d₆, fun hv => ?_⟩
  have u₃ := d₃.toExpands.unaltered hv
  have hne : v.value ≠ t := by
    intro he
    rw [he, d₃.free] at hv
    cases hv
  obtain ⟨ft₄, hf₄⟩ := h₄ ft₃ u₃.isValid hne
  obtain ⟨ft₅, hf₅⟩ := ft₄.grows h₅.1.grows
  obtain ⟨ft₆, hf₆⟩ := h₆ ft₅ hclock hne₅
  refine ⟨ft₆, ?_⟩
  have hvalue : m₃.value v.value = m.value v.value := u₃.value
  rw [hf₆, hf₅, hf₄, hf₃, hf₂, hf₁, h₅.2, h₂.2, hvalue]
  rfl

/-- An integer field is read, if it is one. -/
theorem ends_intField (wf : m.heap.WellFormed) (hn : m.HasNil) (ft : m.heap.Fielded t)
    {name : Builtin} {i : Int16} (hi : m.heap.fieldNamed t name.nameId = .int i) :
    Ends (intField t name) m (fun n m' => Expands m m' ∧ n = i.toInt)
      fun e _ => e = .fault .outOfMemory := by
  refine ends_bind (ends_field wf hn ft name.nameId) fun r m₁ h₁ => ends_get_bind ?_
  obtain ⟨x, -, hr⟩ := h₁
  rw [hr, hi]
  exact ends_pure ⟨x, rfl⟩

/-- **What comes back.** A version is read back from a table that has its fields if the robot is not
in the upper half, and refused otherwise. -/
theorem ends_readVersion (wf : m.heap.WellFormed) (hn : m.HasNil) (ft : m.heap.Fielded t)
    (hu : m.heap.fieldNamed t = u.fields) : Ends (readVersion t) m
      (fun w m' => Expands m m' ∧ m'.heap.isValid w.value = true ∧ m'.update w = u
        ∧ u.robot.toNat < 2 ^ 15)
      fun e _ => e = .fault .outOfMemory ∨ e = .fault .type ∧ 2 ^ 15 ≤ u.robot.toNat := by
  have table : Ends (expectTable t) m (fun _ m' => m' = m)
      fun e _ => e = .fault .outOfMemory ∨ e = .fault .type ∧ 2 ^ 15 ≤ u.robot.toNat := by
    refine ends_get_bind ?_
    simp only [ft.isTable.2, ft.isArray]
    exact ends_pure rfl
  refine ends_bind table fun _ m₀ he => ?_
  subst he
  refine ends_bind ((ends_intField wf hn ft (by rw [hu, Update.fields_robot])).imp
    (fun _ _ => id) fun _ _ => .inl) fun robot m₁ h₁ => ?_
  obtain ⟨x₁, rfl⟩ := h₁
  obtain ⟨ft₁, hf₁⟩ := ft.grows x₁.grows
  refine ends_bind ((ends_intField x₁.grows.wellFormed (hn.expands x₁) ft₁
    (by rw [hf₁, hu, Update.fields_timestamp])).imp (fun _ _ => id) fun _ _ => .inl)
    fun clock m₂ h₂ => ?_
  obtain ⟨x₂, rfl⟩ := h₂
  have x₂ := x₁.trans x₂
  obtain ⟨ft₂, hf₂⟩ := ft.grows x₂.grows
  refine ends_bind ((ends_field x₂.grows.wellFormed (hn.expands x₂) ft₂
    Builtin.data.nameId).imp (fun _ _ => id) fun _ _ => .inl) fun value m₃ h₃ => ?_
  obtain ⟨x₃, hv, hvalue⟩ := h₃
  rw [hf₂, hu, Update.fields_data] at hvalue
  have hclock : (Int16.ofNat u.clock.toNat).toInt = u.clock.toNat :=
    Int16.toInt_ofNat_of_lt (u.clock.toNat_lt.trans (by decide))
  have hlt := u.clock.toNat_lt
  have hsmall : (decide (0 ≤ (u.clock.toNat : Int)) && decide ((u.clock.toNat : Int) < 256))
      = true := by
    rw [Bool.and_eq_true, decide_eq_true_iff, decide_eq_true_iff]
    omega
  rw [toInt_toInt16, hclock, hsmall]
  by_cases hrobot : u.robot.toNat < 2 ^ 15
  · rw [if_pos hrobot, decide_eq_true (Int.natCast_nonneg _), Int.toNat_natCast, Int.toNat_natCast,
      UInt16.ofNat_toNat, UInt8.ofNat_toNat]
    exact ends_pure ⟨x₂.trans x₃, hv, by rw [update, hvalue], hrobot⟩
  · have hneg : ¬ 0 ≤ (u.robot.toNat : Int) - 2 ^ 16 := by
      have := u.robot.toNat_lt
      omega
    rw [if_neg hrobot, decide_eq_false hneg]
    exact ends_throw (.inr ⟨rfl, not_lt.1 hrobot⟩)

/-! ### The script is asked -/

/-- What is made before the script is asked: the key, and a record for each of the two versions. -/
def present (key : NameId) (here there : Version) : Action F (Ref × Ref × Ref) := do
  let keyObject ← alloc (.string key)
  let mine ← versionTable here
  let theirs ← versionTable there
  return (keyObject, mine, theirs)

/-- A conflict is settled up to the point where a loss is reported. It answers what to report. -/
def adopt (call : Caller F) (key : NameId) (p : Nat) (here there : Version) :
    Action F (Ref × Option (Ref × Ref)) := do
  let out ← judge call key here there
  storeVersion p out.2.1
  sendEntry .put key p
  return (out.1, out.2.2)

/-- What is done with the answer of the script. -/
def accept (key : NameId) (p : Nat) (here there : Version) (keyObject answer : Ref) :
    Action F (Ref × Option (Ref × Ref)) := do
  let winner ← readVersion answer
  emit (.conflict key here.robot there.robot winner.robot)
  let loss ← lossToReport here winner
  storeVersion p winner
  sendEntry .put key p
  return (keyObject, loss)

theorem settleConflict_eq_adopt (call : Caller F) (key : NameId) (p : Nat) (here there : Version) :
    settleConflict call key p here there
      = adopt call key p here there >>= fun out => reportLoss call out.1 out.2 := by
  simp only [settleConflict_eq, adopt, bind_assoc, pure_bind]

theorem onlyHeap_setField (t : Ref) (name : NameId) (r : Ref) :
    OnlyHeap (setField t name r : Action F Unit) :=
  (onlyHeap_alloc _).bind fun _ => (onlyHeap_touch t).bind fun _ => onlyHeap_onHeap _

theorem onlyHeap_field (t : Ref) (name : NameId) : OnlyHeap (field t name : Action F Ref) :=
  (onlyHeap_alloc _).bind fun _ => (onlyHeap_touch t).bind fun _ =>
    onlyHeap_get_bind fun _ => onlyHeap_pure _

theorem onlyHeap_versionTable (v : Version) : OnlyHeap (versionTable v : Action F Ref) :=
  (onlyHeap_onHeap _).bind fun t => (onlyHeap_alloc _).bind fun robot =>
    (onlyHeap_setField t _ robot).bind fun _ => (onlyHeap_setField t _ v.value).bind fun _ =>
      (onlyHeap_alloc _).bind fun clock => (onlyHeap_setField t _ clock).bind fun _ =>
        onlyHeap_pure t

theorem onlyHeap_present (key : NameId) (here there : Version) :
    OnlyHeap (present key here there : Action F (Ref × Ref × Ref)) :=
  (onlyHeap_alloc _).bind fun _ => (onlyHeap_versionTable here).bind fun _ =>
    (onlyHeap_versionTable there).bind fun _ => onlyHeap_pure _

theorem onlyHeap_readVersion (t : Ref) : OnlyHeap (readVersion t : Action F Version) := by
  have int : ∀ name, OnlyHeap (intField t name : Action F Int) := fun name =>
    (onlyHeap_field t _).bind fun _ => onlyHeap_get_bind fun _ => (onlyHeap_orFail _ _).bind
      fun _ => onlyHeap_pure _
  exact (onlyHeap_get_bind fun _ => onlyHeap_require _ _).bind fun _ => (int _).bind fun _ =>
    (int _).bind fun _ => (onlyHeap_field t _).bind fun _ => (onlyHeap_require _ _).bind fun _ =>
      (onlyHeap_require _ _).bind fun _ => onlyHeap_pure _

/-- The heap or the stack has run out. -/
def Exhausted (e : Halt) : Prop := e = .fault .outOfMemory ∨ e = .fault .stack

/-- The record `r` is as it was, the machine still stores, and the entry of the key is where it
was. -/
structure Intact (key : NameId) (r : Ref) (m m' : Machine F) : Prop where
  /-- The machine stores, -/
  storing : m'.Storing
  /-- and has its nil. -/
  nil : m'.HasNil
  /-- The entry is where it was. -/
  position : m'.stigmergy.position? key = m.stigmergy.position? key
  /-- The table is not altered, -/
  table : Unaltered m.heap m'.heap r
  /-- and neither is what is in it. -/
  contents : ∀ e ∈ m.heap.tableEntries r,
    Unaltered m.heap m'.heap e.1 ∧ Unaltered m.heap m'.heap e.2

/-- Asked about the conflict, the function of the script answers one of the two records that it is
given, unchanged: that of the other robot if `yields`. When it returns, `queued` is the outbox. -/
def Chooses (call : Caller F) (callback : Ref) (key : NameId) (here there : Version)
    (yields : Bool) (queued : Outbox) (m : Machine F) : Prop :=
  ∀ k mine theirs m₁, present key here there m = .ok (k, mine, theirs) m₁ →
    Ends (call callback [k, mine, theirs]) m₁
      (fun r m₂ => r = (if yields then theirs else mine) ∧ Intact key r m₁ m₂
        ∧ m₂.outbox = queued)
      fun e _ => Exhausted e

/-- Told of the loss, if there is one, the script leaves the entry and the outbox alone. -/
def BearsLoss (call : Caller F) (key : NameId) (p : Nat) (here there : Version)
    (m : Machine F) : Prop :=
  ∀ k callback lost m₁, adopt call key p here there m = .ok (k, some (callback, lost)) m₁ →
    Ends (call callback [k, lost]) m₁
      (fun _ m' => m'.replica? key = m₁.replica? key ∧ m'.outbox = m₁.outbox)
      fun e _ => Exhausted e

theorem Expands.storing (x : Expands m m') (hm : m.Storing) : m'.Storing := by
  refine ⟨x.grows.wellFormed, x.grows.tidy hm.tidy, fun e he => ?_⟩
  have hs : m'.stigmergy = m.stigmergy := by rw [x.same]
  exact (x.unaltered (hm.entries e (hs ▸ he))).isValid

/-- There is a loss to report if the script wants to know of losses, this robot wrote the entry and
another one wins. What is reported is a record of the entry. -/
theorem ends_lossToReport (wf : m.heap.WellFormed) (tidy : m.heap.Tidy) (here winner : Version) :
    Ends (lossToReport here winner) m (fun loss m' => Expands m m'
        ∧ (loss.isSome ↔ m.stigmergy.onConflictLost.isSome ∧ here.robot = m.robot
          ∧ winner.robot ≠ m.robot)
        ∧ ∀ callback lost, loss = some (callback, lost) →
          m.stigmergy.onConflictLost = some callback ∧ (m.heap.isValid here.value = true →
            m'.heap.Fielded lost ∧ m'.heap.fieldNamed lost = (m.update here).fields))
      fun e _ => e = .fault .outOfMemory := by
  refine ends_get_bind ?_
  cases hl : m.stigmergy.onConflictLost with
  | none => exact ends_pure ⟨.refl wf, by simp, fun _ _ h => nomatch h⟩
  | some callback =>
    dsimp only
    split
    · next hlost =>
      refine ends_bind (ends_versionTable wf tidy here) fun lost m₁ h₁ => ends_pure ?_
      refine ⟨h₁.1.toExpands, by simp [hlost.1, hlost.2], fun _ _ h => ?_⟩
      cases h
      exact ⟨rfl, h₁.2⟩
    · next hlost => exact ends_pure ⟨.refl wf, by simpa using hlost, fun _ _ h => nomatch h⟩

/-- The script is asked in a heap that has grown by two records with the fields of the versions. -/
theorem ends_present (hm : m.Storing) (hhere : m.heap.isValid here.value = true)
    (hthere : m.heap.isValid there.value = true) : Ends (present key here there) m
      (fun out m' => Expands m m'
        ∧ (m'.heap.Fielded out.2.1 ∧ m'.heap.fieldNamed out.2.1 = (m.update here).fields)
        ∧ m'.heap.Fielded out.2.2 ∧ m'.heap.fieldNamed out.2.2 = (m.update there).fields)
      fun e _ => e = .fault .outOfMemory := by
  refine ends_bind (ends_alloc hm.wellFormed (by simp) (by simp)) fun k m₁ h₁ => ?_
  obtain ⟨x₁, -⟩ := h₁
  refine ends_bind (ends_versionTable x₁.grows.wellFormed (x₁.grows.tidy hm.tidy) here)
    fun mine m₂ h₂ => ?_
  obtain ⟨d₂, hmine⟩ := h₂
  obtain ⟨ft, hf⟩ := hmine (x₁.unaltered hhere).isValid
  have x₂ := x₁.trans d₂.toExpands
  refine ends_bind (ends_versionTable x₂.grows.wellFormed (x₂.grows.tidy hm.tidy) there)
    fun theirs m₃ h₃ => ends_pure ?_
  obtain ⟨d₃, htheirs⟩ := h₃
  obtain ⟨ft', hf'⟩ := htheirs (x₂.unaltered hthere).isValid
  obtain ⟨ft₃, hf₃⟩ := ft.grows d₃.grows
  rw [x₁.update hhere] at hf
  rw [x₂.update hthere] at hf'
  exact ⟨x₂.trans d₃.toExpands, ⟨ft₃, hf₃.trans hf⟩, ft', hf'⟩

/-- The key as the script is shown it, and the winner. -/
def arbitrate (call : Caller F) (key : NameId) (here there : Version) :
    Action F (Ref × Version) := do
  let keyObject ← alloc (.string key)
  let winner ← chooseWinner call keyObject here there
  return (keyObject, winner)

/-- When the winner is known, it is seen whether there is a loss to report. -/
theorem judge_eq_arbitrate (call : Caller F) (key : NameId) (here there : Version) :
    judge call key here there = arbitrate call key here there >>= fun out => do
      emit (.conflict key here.robot there.robot out.2.robot)
      let loss ← lossToReport here out.2
      return (out.1, out.2, loss) := by
  simp only [judge, arbitrate, bind_assoc, pure_bind]

/-- When the script settles conflicts, it is asked first, and its answer is read. -/
theorem arbitrate_apply (wf : m.heap.WellFormed) (hc : m.stigmergy.onConflict = some callback) :
    arbitrate call key here there m = (do
      let (k, mine, theirs) ← present key here there
      let winner ← call callback [k, mine, theirs] >>= readVersion
      return (k, winner)) m := by
  simp only [arbitrate, present, bind_assoc, pure_bind]
  refine bind_congr_of_ok fun k m₁ hk => ?_
  have x := ((ends_alloc wf (by simp) (by simp)).of_ok hk).1
  have hc₁ : m₁.stigmergy.onConflict = some callback := by rw [x.same]; exact hc
  rw [chooseWinner, bind_assoc, get_bind_apply]
  simp only [hc₁, bind_assoc]

/-- The winner is the record that the script has chosen, if its robot is not in the upper half. -/
theorem ends_arbitrate_of_chooses (hm : m.Storing) (hc : m.stigmergy.onConflict = some callback)
    (hhere : m.heap.isValid here.value = true) (hthere : m.heap.isValid there.value = true)
    {yields : Bool} {queued : Outbox}
    (choice : Chooses call callback key here there yields queued m)
    (hu : u = m.update (if yields then there else here)) :
    Ends (arbitrate call key here there) m
      (fun out m' => m'.Storing ∧ m'.stigmergy.position? key = m.stigmergy.position? key
        ∧ m'.outbox = queued ∧ m'.heap.isValid out.2.value = true ∧ m'.update out.2 = u
        ∧ u.robot.toNat < 2 ^ 15)
      fun e _ => Exhausted e ∨ e = .fault .type ∧ 2 ^ 15 ≤ u.robot.toNat := by
  rw [ends_iff, arbitrate_apply hm.wellFormed hc, ← ends_iff]
  refine ends_bind ((ends_present hm hhere hthere).and_run.imp (fun _ _ => id)
    fun _ _ h => .inl (.inl h)) fun out m₁ h₁ => ?_
  obtain ⟨k, mine, theirs⟩ := out
  obtain ⟨⟨x₁, hmine, htheirs⟩, hrun⟩ := h₁
  refine ends_bind (Q := fun w m' => m'.Storing
    ∧ m'.stigmergy.position? key = m.stigmergy.position? key ∧ m'.outbox = queued
    ∧ m'.heap.isValid w.value = true ∧ m'.update w = u ∧ u.robot.toNat < 2 ^ 15) ?_
    fun _ _ h => ends_pure h
  refine ends_bind ((choice k mine theirs m₁ hrun).imp (fun _ _ => id) fun _ _ => .inl)
    fun r m₂ h₂ => ?_
  obtain ⟨hr, i, hqueued⟩ := h₂
  have hrecord : m₁.heap.Fielded r ∧ m₁.heap.fieldNamed r = u.fields := by
    rw [hr, hu]
    cases yields with
    | true => exact htheirs
    | false => exact hmine
  obtain ⟨ft, hf⟩ := hrecord.1.unaltered i.table i.contents
  refine (ends_readVersion i.storing.wellFormed i.nil ft (hf.trans hrecord.2)).imp
    (fun w m' h => ?_) fun _ _ h => h.imp_left .inl
  obtain ⟨x, hv, hw, hrobot⟩ := h
  refine ⟨x.storing i.storing, ?_, ?_, hv, hw, hrobot⟩
  · rw [x.same]
    exact i.position.trans (by rw [x₁.same])
  · rw [x.same]
    exact hqueued

/-- Judging ends with the record that the script has chosen, if its robot is not in the upper
half. -/
theorem ends_judge_of_chooses (hm : m.Storing) (hc : m.stigmergy.onConflict = some callback)
    (hhere : m.heap.isValid here.value = true) (hthere : m.heap.isValid there.value = true)
    {yields : Bool} {queued : Outbox}
    (choice : Chooses call callback key here there yields queued m)
    (hu : u = m.update (if yields then there else here)) :
    Ends (judge call key here there) m
      (fun out m' => m'.Storing ∧ m'.stigmergy.position? key = m.stigmergy.position? key
        ∧ m'.outbox = queued ∧ m'.update out.2.1 = u ∧ u.robot.toNat < 2 ^ 15)
      fun e _ => Exhausted e ∨ e = .fault .type ∧ 2 ^ 15 ≤ u.robot.toNat := by
  rw [judge_eq_arbitrate]
  refine ends_bind (ends_arbitrate_of_chooses hm hc hhere hthere choice hu) fun out m₁ h₁ => ?_
  obtain ⟨hm₁, hp₁, hqueued, hv, hw, hrobot⟩ := h₁
  refine ends_bind (ends_modify (Q := fun _ m' => Expands m₁ m') ⟨rfl, .refl hm₁.wellFormed⟩)
    fun _ m₂ x₂ => ?_
  have hm₂ := x₂.storing hm₁
  refine ends_bind ((ends_lossToReport hm₂.wellFormed hm₂.tidy here out.2).imp (fun _ _ h => h.1)
    fun _ _ h => .inl (.inl h)) fun loss m₃ x₃ => ends_pure ?_
  have x := x₂.trans x₃
  refine ⟨x.storing hm₁, ?_, ?_, (x.update hv).trans hw, hrobot⟩
  · rw [x.same]
    exact hp₁
  · rw [x.same]
    exact hqueued

/-! ### The choice is adopted -/

/-- A copy is made, or there is no room for it. -/
theorem fails_ownedCopy (r : Ref) (m : Machine F) : Ends (ownedCopy r) m (fun _ _ => True)
    fun e _ => e = .fault .outOfMemory := by
  have copied : Ends (onHeap (Heap.copy r)) m (fun _ _ => True)
      fun e _ => e = .fault .outOfMemory :=
    (ends_onHeap_of (Q := fun _ _ => True) (E := fun _ _ => True)
      ⟨fun _ => trivial, fun _ => trivial⟩).imp (fun _ _ _ => trivial) fun _ _ => id
  exact ends_bind copied fun _ _ _ =>
    ends_bind (Q := fun _ _ => True) (ends_iff.2 trivial) fun _ _ _ => ends_pure trivial

/-- A version is stored, or there is no room for its copy. -/
theorem fails_storeVersion (p : Nat) (v : Version) (m : Machine F) : Ends (storeVersion p v) m
    (fun _ _ => True) fun e _ => e = .fault .outOfMemory := by
  refine ends_get_bind ?_
  split
  · exact ends_modify trivial
  refine ends_bind (Q := fun _ _ => True) ?_ fun _ _ _ => ends_modify trivial
  rw [replaceOwned]
  split
  · exact ends_pure trivial
  · exact ends_bind (fails_ownedCopy v.value m) fun _ _ _ =>
      ends_bind (Q := fun _ _ => True) (ends_iff.2 trivial) fun _ _ _ => ends_pure trivial

/-- An entry is added, or there is no room for its copy. -/
theorem fails_insertVersion (key : NameId) (v : Version) (m : Machine F) :
    Ends (insertVersion key v) m (fun _ _ => True) fun e _ => e = .fault .outOfMemory :=
  ends_get_bind (ends_bind (fails_ownedCopy v.value m) fun _ _ _ => ends_modify trivial)

/-- The entry of a key is put in the outbox once. -/
theorem ends_sendEntry_append (hp : m.stigmergy.position? key = some p)
    (hu : m.replica? key = some u) : Ends (sendEntry op key p) m
      (fun _ m' => m'.replica? key = some u
        ∧ m'.outbox = (m.outbox.append (u.message op key)).2 ∧ m'.heap = m.heap)
      fun _ _ => False := by
  obtain ⟨e, hs, -⟩ := Stigmergy.exists_of_position? hp
  have hue : m.update e.version = u := Option.some.inj ((replica?_of_position? hp hs).symm.trans hu)
  refine ends_get_bind ?_
  rw [hs]
  refine ends_get_bind ?_
  have hmessage : Message.stigmergy op e.robot key (m.value e.value) e.clock
      = u.message op key := by rw [← hue]; rfl
  rw [hmessage]
  rcases m.outbox.append (u.message op key) with ⟨evicted, outbox⟩
  refine ends_bind (ends_modify (Q := fun _ m' => m' = { m with outbox }) rfl) fun _ m₁ he => ?_
  subst he
  cases evicted with
  | none => exact ends_pure ⟨hu, rfl, rfl⟩
  | some lost => exact ends_modify ⟨hu, rfl, rfl⟩

/-- The chosen version is stored and sent. -/
theorem ends_adopt (hm : m.Storing) (hp : m.stigmergy.position? key = some p)
    (hc : m.stigmergy.onConflict = some callback) (hhere : m.heap.isValid here.value = true)
    (hthere : m.heap.isValid there.value = true) {yields : Bool} {queued : Outbox}
    (choice : Chooses call callback key here there yields queued m)
    (hu : u = m.update (if yields then there else here)) :
    Ends (adopt call key p here there) m
      (fun _ m' => u.robot.toNat < 2 ^ 15 ∧ m'.replica? key = some u
        ∧ m'.outbox = (queued.append (u.message .put key)).2)
      fun e _ => Exhausted e ∨ e = .fault .type ∧ 2 ^ 15 ≤ u.robot.toNat := by
  refine ends_bind (ends_judge_of_chooses hm hc hhere hthere choice hu) fun out m₁ h₁ => ?_
  obtain ⟨hm₁, hp₁, hqueued, hw, hrobot⟩ := h₁
  rw [hp] at hp₁
  refine ends_bind (((ends_storeVersion hm₁ hp₁ out.2.1).and (fails_storeVersion p _ _)).imp
    (fun _ _ h => h.1) fun _ _ h => .inl (.inl h.2)) fun _ m₂ h₂ => ?_
  obtain ⟨-, hheld, hp₂, hout⟩ := h₂
  rw [hw] at hheld
  refine ends_bind ((ends_sendEntry_append hp₂ hheld).imp (fun _ _ => id) fun _ _ => False.elim)
    fun _ m₃ h₃ => ends_pure ⟨hrobot, h₃.1, ?_⟩
  rw [h₃.2.1, hout, hqueued]

/-- An update of another robot with the clock of the entry is a conflict. -/
theorem receiveStigmergy_of_conflict (hp : m.stigmergy.position? key = some p)
    (hs : m.stigmergy.entries[p]? = some e) (hclock : there.clock = e.clock)
    (hrobot : there.robot ≠ e.robot) : receiveStigmergy call op key there m
      = (adopt call key p e.version there >>= fun out => reportLoss call out.1 out.2) m := by
  have hnewer : ¬ Clock.isNewer there.clock e.version.clock = true := by
    rw [show e.version.clock = there.clock from hclock.symm, Clock.isNewer_self]
    simp
  rw [receiveStigmergy, get_bind_apply]
  simp only [hp, hs]
  rw [if_neg hnewer, if_pos ⟨hclock, hrobot⟩, settleConflict_eq_adopt]

/-- **The choice of the script is adopted.** An update conflicts with the entry of its key, and the
function of the script answers one of its two records unchanged. If the record is from a robot of
the lower half, the update is taken in, unless the heap or the stack runs out: afterwards the entry
has the robot, the clock and the value of the record, and one message that carries them is put in
the outbox. If its robot is in the upper half, the update is not taken in. -/
theorem adopts_choice (hm : m.Storing) (hthere : m.heap.isValid there.value = true)
    (hp : m.stigmergy.position? key = some p) (hs : m.stigmergy.entries[p]? = some e)
    (hclock : there.clock = e.clock) (hrobot : there.robot ≠ e.robot)
    (hc : m.stigmergy.onConflict = some callback) {yields : Bool} {queued : Outbox}
    (hqueued : queued.queue.Bounded)
    (choice : Chooses call callback key e.version there yields queued m)
    (loss : BearsLoss call key p e.version there m)
    (hu : u = m.update (if yields then there else e.version)) :
    Ends (receiveStigmergy call op key there) m
      (fun _ m' => u.robot.toNat < 2 ^ 15 ∧ m'.replica? key = some u
        ∧ m'.outbox = (queued.append (u.message .put key)).2
        ∧ u.message .put key ∈ m'.outbox.toList)
      fun e _ => Exhausted e ∨ e = .fault .type ∧ 2 ^ 15 ≤ u.robot.toNat := by
  have hhere := hm.entries e (Array.mem_of_getElem? hs)
  have hmem := (Outbox.mem_append hqueued (u.message .put key)).2.1
  rw [ends_iff, receiveStigmergy_of_conflict hp hs hclock hrobot, ← ends_iff]
  refine ends_bind (ends_adopt hm hp hc hhere hthere choice hu).and_run fun out m₁ h₁ => ?_
  obtain ⟨⟨hlower, hheld, hout⟩, hrun⟩ := h₁
  obtain ⟨k, _ | ⟨callback', lost⟩⟩ := out
  · exact ends_pure ⟨hlower, hheld, hout, hout ▸ hmem⟩
  · refine ends_bind ((loss k callback' lost m₁ hrun).imp (fun _ _ => id) fun _ _ => .inl)
      fun _ m₂ h₂ => ends_pure ⟨hlower, h₂.1.trans hheld, h₂.2.trans hout, ?_⟩
    rw [h₂.2, hout]
    exact hmem

/-! ### Calls that are checked -/

section Checked

variable {I : Machine F → Prop} {call' : Caller F} {n : Nat} {k mine theirs : Ref}

theorem upholds_arbitrate [Lasting I] (hcall : ∀ closure args, Upholds I (call closure args)) :
    Upholds I (arbitrate call key here there) :=
  (upholds_alloc _).bind fun _ => (upholds_chooseWinner hcall _ _ _).bind fun _ => upholds_pure _

/-- A conflict is settled with other calls as it is with these, if they do the same or stop. -/
theorem refines_adopt (hcall : ∀ closure args, Confined (call closure args))
    (h : ∀ closure args, Refines (call closure args) (call' closure args)) :
    Refines (adopt call key p here there) (adopt call' key p here there) := by
  have arbitrated : Refines (arbitrate call key here there) (arbitrate call' key here there) := by
    refine (upholds_alloc _).refines fun k => Refines.bind (refines_get_bind fun m => ?_)
      (upholds_chooseWinner (fun closure args =>
        (hcall closure args).upholds_true) _ _ _).confined fun _ => .refl _
    cases m.stigmergy.onConflict with
    | none => exact .refl _
    | some callback =>
      exact (upholds_versionTable here).refines fun mine => (upholds_versionTable there).refines
        fun theirs => (h callback _).bind (hcall callback _) fun _ => .refl _
  simp only [adopt, judge_eq_arbitrate, bind_assoc]
  exact arbitrated.bind (upholds_arbitrate fun closure args =>
    (hcall closure args).upholds_true).confined fun _ => .refl _

/-- Once the records are made, the script is asked, and its answer accepted. -/
theorem adopt_of_present (wf : m.heap.WellFormed) (hc : m.stigmergy.onConflict = some callback)
    (hpresent : present key here there m = .ok (k, mine, theirs) m₁) :
    adopt call key p here there m
      = (call callback [k, mine, theirs] >>= accept key p here there k) m₁ := by
  have harbitrate : arbitrate call key here there m
      = (call callback [k, mine, theirs] >>= readVersion >>= fun winner =>
        (pure (k, winner) : Action F (Ref × Version))) m₁ := by
    rw [arbitrate_apply wf hc, bind_of_ok hpresent]
  rw [adopt, judge_eq_arbitrate, bind_assoc, bind_congr_run _ harbitrate]
  simp only [bind_assoc, pure_bind]
  rfl

/-- If the call fails in which the script is asked, then so does settling the conflict. -/
theorem adopt_of_error (wf : m.heap.WellFormed) (hc : m.stigmergy.onConflict = some callback)
    (hpresent : present key here there m = .ok (k, mine, theirs) m₁) {e : Halt}
    (hcall : call callback [k, mine, theirs] m₁ = .error e m') :
    adopt call key p here there m = .error e m' := by
  rw [adopt_of_present wf hc hpresent, bind_of_error hcall]

/-- The call answers its third argument. This is a table that is as it was, and so is what else takes
part in a conflict. -/
def answersRecord : Check F := fun args r m m' =>
  args[2]? = some r ∧ m'.stigmergy = m.stigmergy ∧ m'.outbox = m.outbox ∧ m'.HasNil
    ∧ m'.stigmergy.entries.toList.all (fun e => m'.heap.isValid e.value)
    ∧ Unaltered m.heap m'.heap r
    ∧ (m.heap.tableEntries r).all
        fun e => Unaltered m.heap m'.heap e.1 ∧ Unaltered m.heap m'.heap e.2

variable [HostFunctions F] {collect : List Ref → Action F Unit}
  (hc : ∀ args, Refines (collect args) collectGarbage) (hcollect : ∀ args, Confined (collect args))

include hc hcollect

/-- A conflict is settled as it is with checked calls, unless these stop. -/
theorem refines_adopt_callChecked {check : Check F} :
    Refines (adopt (callChecked check collect n) key p here there)
      (adopt (callClosure n) key p here there) :=
  refines_adopt (confined_callChecked hcollect) (refines_callChecked hc hcollect)

/-- If a conflict is settled with checked calls, or fails otherwise than by the check, then the
script has chosen the record of the other robot. -/
theorem chooses_of_callChecked (hm : m.Standard) (hcallback : m.stigmergy.onConflict = some callback)
    (hrun : ∀ m', adopt (callChecked answersRecord collect n) key p here there m
      ≠ .error .outOfFuel m') :
    Chooses (callClosure n) callback key here there true m.outbox m := by
  intro k mine theirs m₁ hpresent
  have hm₁ := (((upholds_alloc (I := fun _ => True) (.string key)).bind fun _ =>
    (upholds_versionTable here).bind fun _ => (upholds_versionTable there).bind fun _ =>
      upholds_pure _) m hm trivial).of_ok hpresent |>.1.standard
  have hout : m₁.outbox = m.outbox := by rw [(onlyHeap_present key here there m).of_ok hpresent]
  cases hs : callChecked answersRecord collect n callback [k, mine, theirs] m₁ with
  | error e m₂ =>
    have hfuel := callChecked_eq_error hs
    subst hfuel
    exact absurd (adopt_of_error hm.wellFormed hcallback hpresent hs) (hrun m₂)
  | ok r m₂ =>
    have hcall := (refines_callChecked hc hcollect callback _ m₁ hm₁).of_ok hs
    have hm₂ := ((confined_callChecked hcollect callback _ m₁ hm₁).of_ok hs).standard
    obtain ⟨hr, hstore, hqueued, hnil, hentries, htable, hcontents⟩ :=
      of_decide_eq_true (callChecked_eq_ok hs).2
    rw [List.all_eq_true] at hentries hcontents
    have intact : Intact key r m₁ m₂ :=
      ⟨⟨hm₂.wellFormed, hm₂.tidy, fun e he => hentries e (Array.mem_toList_iff.2 he)⟩, hnil,
        by rw [hstore], htable, fun e he => of_decide_eq_true (hcontents e he)⟩
    refine (ends_of_ok hcall).imp (fun _ _ h => ?_) fun _ _ => False.elim
    obtain ⟨rfl, rfl⟩ := h
    exact ⟨(Option.some.inj hr).symm, intact, hqueued.trans hout⟩

end Checked

/-! ### A small machine that is asked -/

/-- An action that changes the heap at most ends in a heap that is written down. -/
theorem OnlyHeap.eq_ok_of_answers [DecidableEq α] {x : Action F α} (hx : OnlyHeap x) {a : α}
    {h : Heap} (hs : m.strayed = false) (run : answersWith x m (fun out m' =>
      decide (out = a ∧ m'.strayed = false ∧ m'.heap.SameBytes h)) = true) :
    x m = .ok a { m with heap := h } := by
  obtain ⟨out, m', hrun, hp⟩ := exists_of_answersWith run
  obtain ⟨rfl, hstrayed, same⟩ := of_decide_eq_true hp
  rw [hrun, (hx m).of_ok hrun, hstrayed.trans hs.symm, same.eq]

/-- The heap of the machine: nil, the record that holds nil, a function, the integers seven and nine
that are in the store, and the integer 42. -/
@[irreducible] def askedHeap : Heap :=
  [.allocValue .nil, .makePermanent 0, .arrayNew, .arrayPush 1 0, .makePermanent 1,
    .allocValue (.closure (.ofCode 0)), .allocValue (.int 7), .makePermanent 3,
    .allocValue (.int 42), .allocValue (.int 9), .makePermanent 5].foldl Heap.Request.perform
      (Heap.make 218)

theorem askedHeap_eq : askedHeap = .laidOut
    [(.nil, true), (.table ⟨0, true, false⟩, true), (.closure (.ofCode 0), false), (.int 7, true),
      (.int 42, false), (.int 9, true)] 166 [[0]] := by
  unfold askedHeap
  exact Heap.SameBytes.eq (by decide +kernel)

/-- A robot that holds updates of its own under two keys. Its function for conflicts answers its
third argument, which is the record of the other robot. -/
def asked : Machine Empty :=
  { blank { heapSize := 218, robot := 1, stackSize := 20, inboxSlots := 2, outboxSlots := 2 }
      0 1 1 1 askedHeap with
    code := #[Opcode.loadLocal.byte, 3, 0, Opcode.ret1.byte]
    stigmergy := {
      capacity := 2
      entries := #[(⟨1, 5, 1⟩ : Version).entry 35 5 (.int 9),
        (⟨1, 3, 1⟩ : Version).entry 34 3 (.int 7)]
      onConflict := some 2 } }

theorem standard_asked : asked.Standard ∧ asked.Storing ∧ asked.outbox.queue.Bounded := by
  have wf : askedHeap.WellFormed ∧ askedHeap.Tidy := by
    unfold askedHeap
    exact (Heap.Built.foldl (.make (by decide)) (by simp [Heap.Request.Allowed])).wellFormed
  have held : askedHeap.isValid 3 = true ∧ askedHeap.isValid 5 = true := by
    rw [askedHeap_eq]
    decide +kernel
  refine ⟨⟨⟨wf.1, wf.2, Nat.zero_le 0, Nat.zero_le 20⟩, show 20 ≤ 65535 by omega, rfl⟩,
    ⟨wf.1, wf.2, fun e he => ?_⟩, Ring.bounded_make 2⟩
  rcases List.mem_pair.1 (Array.mem_toList_iff.2 he) with rfl | rfl
  · exact held.2
  · exact held.1

theorem asked_evaluates : asked.stigmergy.position? 34 = some 1 ∧ asked.heap.isValid 4 = true
    ∧ asked.value 4 = .int 42 := by
  rw [asked, askedHeap_eq]
  decide +kernel

/-- The heap when the records are made: behind what was there, the key and the two records with
their names and numbers. -/
def presentedHeap (robot : RobotId) : Heap := .laidOut
  [(.nil, true), (.table ⟨0, true, false⟩, true), (.closure (.ofCode 0), false), (.int 7, true),
    (.int 42, false), (.int 9, true), (.string 34, false),
    (.table ⟨1, false, false⟩, false), (.int 1, false), (.string 26, false), (.string 27, false),
    (.int 1, false), (.string 28, false),
    (.table ⟨2, false, false⟩, false), (.int robot.toInt16, false), (.string 26, false),
    (.string 27, false), (.int 1, false), (.string 28, false)] 57
  [[15, 14, 16, 4, 18, 17], [9, 8, 10, 3, 12, 11], [0]]

/-- The function is shown two records, for whichever of the two robots. What it answers is adopted if
it is the record of robot 2, and a value of the wrong kind if it is that of robot 40000. -/
theorem asked_answers :
    (∀ robot : RobotId, robot = 2 ∨ robot = 40000 →
      answersWith (present 34 ⟨1, 3, 1⟩ ⟨robot, 4, 1⟩) asked (fun out m' =>
        out = (6, 7, 13) ∧ m'.strayed = false ∧ m'.heap.SameBytes (presentedHeap robot)) = true)
    ∧ answersWith (callChecked answersRecord (fun _ => collectWithin) 8 2 [6, 7, 13]
      >>= accept 34 1 ⟨1, 3, 1⟩ ⟨2, 4, 1⟩ 6) { asked with heap := presentedHeap 2 }
      (fun out m' => out.2 = none ∧ m'.stigmergy.starts = 0 ∧ m'.strayed = false) = true
    ∧ answersWith (attempt (callChecked answersRecord (fun _ => collectWithin) 8 2 [6, 7, 13]
      >>= accept 34 1 ⟨1, 3, 1⟩ ⟨40000, 4, 1⟩ 6)) { asked with heap := presentedHeap 40000 }
      (fun r m' => match r with
        | .error e => e = .type ∧ m'.replica? 34 = some ⟨1, 1, .int 7⟩
        | .ok _ => false) = true := by
  -- all in one theorem, so that the runs are checked one after the other: each takes much room
  refine ⟨fun robot hr => ?_, ?_, ?_⟩
  · rw [asked, askedHeap_eq]
    rcases hr with rfl | rfl
    · decide +kernel
    · decide +kernel
  · decide +kernel
  · decide +kernel

theorem present_asked {robot : RobotId} (hr : robot = 2 ∨ robot = 40000) :
    present 34 ⟨1, 3, 1⟩ ⟨robot, 4, 1⟩ asked
      = .ok (6, 7, 13) { asked with heap := presentedHeap robot } :=
  (onlyHeap_present 34 _ _).eq_ok_of_answers rfl (asked_answers.1 robot hr)

/-- The function is asked about an update of robot 2, and the update is adopted. -/
theorem adopt_asked : ∃ k m',
    adopt (callChecked answersRecord (fun _ => collectWithin) 8) 34 1 ⟨1, 3, 1⟩ ⟨2, 4, 1⟩ asked
        = .ok (k, none) m'
      ∧ adopt (callClosure 8) 34 1 ⟨1, 3, 1⟩ ⟨2, 4, 1⟩ asked = .ok (k, none) m'
      ∧ m'.stigmergy.starts = 0 ∧ m'.strayed = false := by
  obtain ⟨⟨k, loss⟩, m', hrun, hp⟩ := exists_of_answersWith asked_answers.2.1
  obtain ⟨rfl, hstarts, hstrayed⟩ := of_decide_eq_true hp
  rw [← adopt_of_present standard_asked.1.wellFormed rfl (present_asked (.inl rfl))] at hrun
  exact ⟨k, m', hrun, (refines_adopt_callChecked (fun _ => refines_collectWithin)
    (fun _ => confined_collectWithin) _ standard_asked.1).of_ok hrun, hstarts, hstrayed⟩

/-- The record of robot 2 comes back. -/
theorem adopts_choice_asked : ∃ m',
    receiveStigmergy (callClosure 8) .put 34 ⟨2, 4, 1⟩ asked = .ok () m'
    ∧ m'.replica? 34 = some ⟨2, 1, .int 42⟩
    ∧ Message.stigmergy .put 2 34 (.int 42) 1 ∈ m'.outbox.toList := by
  obtain ⟨hm, hs, ho⟩ := standard_asked
  obtain ⟨hp, hv, hvalue⟩ := asked_evaluates
  obtain ⟨k, m', hchecked, hrun, -⟩ := adopt_asked
  have hreceive : receiveStigmergy (callClosure 8) .put 34 ⟨2, 4, 1⟩ asked = .ok () m' := by
    rw [receiveStigmergy_of_conflict hp rfl rfl (by decide)]
    exact bind_of_ok hrun
  have choice : Chooses (callClosure 8) 2 34 ⟨1, 3, 1⟩ ⟨2, 4, 1⟩ true asked.outbox asked :=
    chooses_of_callChecked (fun _ => refines_collectWithin) (fun _ => confined_collectWithin) hm
      rfl fun _ he => by
        rw [hchecked] at he
        cases he
  have bears : BearsLoss (callClosure 8) 34 1 ⟨1, 3, 1⟩ ⟨2, 4, 1⟩ asked := by
    intro k callback lost m₁ hrun'
    rw [hrun] at hrun'
    cases hrun'
  obtain ⟨-, hheld, -, hsent⟩ := (adopts_choice hs hv hp rfl rfl (by decide) rfl ho choice bears
    (u := ⟨2, 1, .int 42⟩) (congrArg (Update.mk 2 1) hvalue.symm)).of_ok hreceive
  exact ⟨m', hreceive, hheld, hsent⟩

/-- **A record that does not come back.** The record of robot 40000 is answered unchanged, and the
machine finds that a value is of the wrong kind. The entry is the old one. -/
theorem refuses_record :
    Chooses (callClosure 8) 2 34 ⟨1, 3, 1⟩ ⟨40000, 4, 1⟩ true asked.outbox asked
    ∧ ∃ m', attempt (receiveStigmergy (callClosure 8) .put 34 ⟨40000, 4, 1⟩) asked
        = .ok (.error .type) m'
      ∧ m'.replica? 34 = some ⟨1, 1, .int 7⟩ := by
  have hm := standard_asked.1
  obtain ⟨r, m', hrun, hr⟩ := exists_of_answersWith asked_answers.2.2
  cases r with
  | ok _ => cases hr
  | error e =>
    obtain ⟨rfl, hheld⟩ := of_decide_eq_true hr
    have hchecked := eq_error_of_attempt hrun
    rw [← adopt_of_present hm.wellFormed rfl (present_asked (.inr rfl))] at hchecked
    have hadopt := (refines_adopt_callChecked (fun _ => refines_collectWithin)
      (fun _ => confined_collectWithin) _ hm).of_error hchecked (by simp)
    have finished : ∀ m₁, adopt (callChecked answersRecord (fun _ => collectWithin) 8) 34 1
        ⟨1, 3, 1⟩ ⟨40000, 4, 1⟩ asked ≠ .error .outOfFuel m₁ := fun _ he => by
      rw [hchecked] at he
      cases he
    refine ⟨chooses_of_callChecked (fun _ => refines_collectWithin)
      (fun _ => confined_collectWithin) hm rfl finished, m', ?_, hheld⟩
    have hreceive : receiveStigmergy (callClosure 8) .put 34 ⟨40000, 4, 1⟩ asked
        = .error (.fault .type) m' := by
      rw [receiveStigmergy_of_conflict asked_evaluates.1 rfl rfl (by decide)]
      exact bind_of_error hadopt
    rw [attempt, hreceive]

end Machine

end SwarmVm
