import SwarmVm.Proofs.Stigmergy.Custody
import SwarmVm.Proofs.Stigmergy.Verdicts

/-!
# What the script is told of a loss

A conflict is lost when this robot wrote the entry and the record that wins names another robot.
Then the script is told, after the entry was changed, with the key and with a record of what the
entry was. The two arguments are made at different times. The record is made when the script has
already been asked, from the value of the entry, which the entry owned all the while. It is the
right one whatever the script did, as long as it left the store alone.

The key is made before the script is asked, and lent to it: nothing but the activation record of the
call refers to it. A function that puts something else in its first local gives the key up. The next
collection takes it, and what is made afterwards may come to be in its place. So the key is the
right one if no collection during that call takes it.

## Main definitions

* `Machine.LeavesStore`, `Machine.SparesKey` — what the script does with the store and the key while
  it is asked
* `Machine.Recounts` — a record of what an entry was
* `Machine.keepsStore` — how a call that leaves the store alone is recognised

## Main results

* `Machine.tells_loss` — when the script is told, and of what
* `Machine.tells_other` — a key that was given up
-/

namespace SwarmVm

namespace Machine

open Heap (Grows)

variable {F : Type} {m m' m'' : Machine F} {call : Caller F} {op : StigmergyOp} {key : NameId}
  {here there : Version} {p n : Nat} {lost : Ref} {e : StigmergyEntry}
  {flying : List (Message Ref)} {I : Machine F → Prop}

/-- Asked about the conflict, the script leaves the store as it is. -/
def LeavesStore (call : Caller F) (key : NameId) (here there : Version) (m : Machine F) : Prop :=
  ∀ callback k mine theirs m₁, m.stigmergy.onConflict = some callback →
    present key here there m = .ok (k, mine, theirs) m₁ →
      Ends (call callback [k, mine, theirs]) m₁ (fun _ m₂ => m₂.stigmergy = m₁.stigmergy)
        fun _ _ => True

/-- While the script is asked about the conflict, no collection takes the key. -/
def SparesKey [HostFunctions F] (n : Nat) (key : NameId) (here there : Version) (m : Machine F) :
    Prop :=
  ∀ callback k mine theirs m₁, m.stigmergy.onConflict = some callback →
    present key here there m = .ok (k, mine, theirs) m₁ →
      callWith (watch collectGarbage k) n callback [k, mine, theirs] m₁
        = callClosure n callback [k, mine, theirs] m₁

/-- In `m'`, the table `lost` is a record of the version that `here` was in `m`: it has the fields
of the version, whose value is still the object that it was. -/
structure Recounts (here : Version) (lost : Ref) (m m' : Machine F) : Prop where
  /-- It is a table with fields, -/
  fielded : m'.heap.Fielded lost
  /-- those of the version. -/
  fields : m'.heap.fieldNamed lost = (m'.update here).fields
  /-- The value is what it was. -/
  value : m'.heap.Denotes here.value (m.value here.value)

theorem Recounts.grows (re : Recounts here lost m m') (g : Grows m'.heap m''.heap) :
    Recounts here lost m m'' := by
  obtain ⟨ft, hf⟩ := re.fielded.grows g
  refine ⟨ft, ?_, re.value.grows g⟩
  rw [hf, re.fields, update_of_grows g re.value.isValid]

/-! ### The script is asked -/

/-- The key is there when it is shown to the script. -/
theorem ends_alloc_key (hm : m.Standard) : Ends (alloc (.string key)) m
    (fun k m' => m'.Standard ∧ m'.heap.Denotes k (.string key)) fun _ _ => True := by
  refine ((ends_alloc hm.wellFormed (by simp) (by simp)).and
    (upholds_alloc (I := fun _ => True) _ m hm trivial)).imp (fun k m' h => ?_)
    fun _ _ _ => trivial
  exact ⟨h.2.1.standard, Heap.denotes_of_value h.1.2 (by simp)⟩

theorem ends_present_key (hm : m.Standard) : Ends (present key here there) m
    (fun out m' => m'.Standard ∧ m'.heap.Denotes out.1 (.string key)) fun _ _ => True := by
  refine ends_bind (ends_alloc_key hm) fun k m₁ h₁ => ?_
  have table : ∀ v, Upholds (fun m => m.heap.Denotes k (.string key))
      (versionTable v : Action F Ref) := fun v => upholds_versionTable v
  refine ends_bind ((table here m₁ h₁.1 h₁.2).imp (fun _ _ => id) fun _ _ _ => trivial)
    fun mine m₂ h₂ => ?_
  exact ends_bind (((table there).later h₂.1 h₂.2).imp (fun _ _ => id) fun _ _ _ => trivial)
    fun theirs m₃ h₃ => ends_pure ⟨h₃.1.standard, h₃.2⟩

/-- What is true of the key when it is made, where the script is not asked, and otherwise when the
answer of the script has been read, is true when the winner is known. -/
theorem ends_arbitrate (wf : m.heap.WellFormed) {Q : Ref → Machine F → Prop}
    (made : Ends (alloc (.string key)) m (fun k m₁ => Q k m₁) fun _ _ => True)
    (asked : ∀ callback k mine theirs m₁, m.stigmergy.onConflict = some callback →
      present key here there m = .ok (k, mine, theirs) m₁ →
        Ends (call callback [k, mine, theirs] >>= readVersion) m₁ (fun _ m' => Q k m')
          fun _ _ => True) :
    Ends (arbitrate call key here there) m (fun out m' => Q out.1 m') fun _ _ => True := by
  cases hc : m.stigmergy.onConflict with
  | none =>
    refine ends_bind (made.and (onlyHeap_alloc (.string key) m)
      |>.imp (fun _ _ => id) fun _ _ _ => trivial) fun k m₁ h₁ => ?_
    refine ends_bind (Q := fun _ m' => Q k m') (ends_get_bind ?_) fun _ _ h => ends_pure h
    have hc₁ : m₁.stigmergy.onConflict = none := by rw [h₁.2]; exact hc
    rw [hc₁]
    exact ends_pure h₁.1
  | some callback =>
    rw [ends_iff, arbitrate_apply wf hc, ← ends_iff]
    refine ends_bind ((onlyHeap_present key here there m).imp (fun _ _ => id)
      fun _ _ _ => trivial).and_run fun out m₁ h₁ => ?_
    obtain ⟨k, mine, theirs⟩ := out
    exact ends_bind (asked _ _ _ _ _ hc h₁.2) fun _ _ h => ends_pure h

/-- The store is as it was when the winner is known. -/
theorem ends_arbitrate_stigmergy (wf : m.heap.WellFormed)
    (quiet : LeavesStore call key here there m) : Ends (arbitrate call key here there) m
      (fun _ m' => m'.stigmergy = m.stigmergy) fun _ _ => True := by
  refine ends_arbitrate (Q := fun _ m' => m'.stigmergy = m.stigmergy) wf
    ((onlyHeap_alloc _ m).imp (fun _ _ h => by rw [h]) fun _ _ _ => trivial)
    fun callback k mine theirs m₁ hc hrun => ?_
  refine ends_bind (quiet _ _ _ _ _ hc hrun) fun r m₂ h₂ => ?_
  have h₁ : m₁.stigmergy = m.stigmergy := by rw [(onlyHeap_present key here there m).of_ok hrun]
  refine (onlyHeap_readVersion r m₂).imp (fun _ _ h => ?_) fun _ _ _ => trivial
  rw [h]
  exact h₂.trans h₁

/-- In a conflict that is settled, the script was asked. -/
theorem asked_of_adopt (wf : m.heap.WellFormed) {callback k mine theirs : Ref}
    {out : Ref × Option (Ref × Ref)} (hcallback : m.stigmergy.onConflict = some callback)
    (hrun : adopt call key p here there m = .ok out m') {m₁ : Machine F}
    (hpresent : present key here there m = .ok (k, mine, theirs) m₁) :
    ∃ r m₂, call callback [k, mine, theirs] m₁ = .ok r m₂ := by
  cases hs : call callback [k, mine, theirs] m₁ with
  | ok r m₂ => exact ⟨r, m₂, rfl⟩
  | error e m₂ =>
    rw [adopt_of_error wf hcallback hpresent hs] at hrun
    cases hrun

variable [HostFunctions F]

/-- The key is still there when the winner is known, if no collection took it. -/
theorem ends_arbitrate_key (hm : m.Standard) (spared : SparesKey n key here there m) :
    Ends (arbitrate (callClosure n) key here there) m
      (fun out m' => m'.heap.Denotes out.1 (.string key)) fun _ _ => True := by
  refine ends_arbitrate hm.wellFormed ((ends_alloc_key hm).imp (fun _ _ h => h.2) fun _ _ => id)
    fun callback k mine theirs m₁ hc hrun => ?_
  obtain ⟨hm₁, d⟩ := (ends_present_key hm).of_ok hrun
  have watched : Upholds (fun m => m.heap.Denotes k (.string key))
      (callWith (watch collectGarbage k) n callback [k, mine, theirs] : Action F Ref) :=
    upholds_callWith upholds_watch n callback _
  have called := watched m₁ hm₁ d
  rw [ends_iff, spared _ _ _ _ _ hc hrun, ← ends_iff] at called
  refine ends_bind (called.imp (fun _ _ => id) fun _ _ _ => trivial) fun r m₂ h₂ => ?_
  exact ((upholds_readVersion r).later h₂.1 h₂.2).imp (fun _ _ h => h.2) fun _ _ _ => trivial

/-! ### What there is to report -/

omit [HostFunctions F] in
theorem upholds_collectGarbage_robot (robot : RobotId) :
    Upholds (fun m => m.robot = robot) (collectGarbage : Action F Unit) := by
  refine confined_collectGarbage.upholds fun {m} _ hr => ends_collectGarbage.imp ?_ ?_
  · rintro _ _ ⟨log, rfl⟩
    exact hr
  · rintro _ _ ⟨-, rfl⟩
    exact hr

/-- There is a loss to report exactly if this robot wrote the entry and another one wins; the record
of it is one of the entry, and the key is right if it was spared. -/
theorem ends_judge_loss (hm : m.Standard) (hk : Keeping flying m)
    (hs : m.stigmergy.shared = false) (he : e ∈ m.stigmergy.entries)
    (quiet : LeavesStore (callClosure n) key e.version there m) :
    Ends (judge (callClosure n) key e.version there) m (fun out m' => m'.Storing
        ∧ m'.stigmergy = m.stigmergy
        ∧ (out.2.2.isSome ↔ m.stigmergy.onConflictLost.isSome ∧ e.robot = m.robot
          ∧ out.2.1.robot ≠ m.robot)
        ∧ (∀ callback lost, out.2.2 = some (callback, lost) →
          m.stigmergy.onConflictLost = some callback ∧ Recounts e.version lost m m')
        ∧ (SparesKey n key e.version there m → m'.heap.Denotes out.1 (.string key)))
      fun _ _ => True := by
  have kept : Upholds (Keeping flying)
      (arbitrate (callClosure n) key e.version there : Action F (Ref × Version)) :=
    upholds_arbitrate (upholds_callClosure upholds_collectGarbage_keeping n)
  have same : Upholds (fun m' : Machine F => m'.robot = m.robot)
      (arbitrate (callClosure n) key e.version there) :=
    upholds_arbitrate (upholds_callClosure (upholds_collectGarbage_robot m.robot) n)
  have shown : Ends (arbitrate (callClosure n) key e.version there) m (fun out m' =>
      SparesKey n key e.version there m → m'.heap.Denotes out.1 (.string key))
      fun _ _ => True :=
    ⟨fun hrun spared => (ends_arbitrate_key hm spared).of_ok hrun, fun _ => trivial⟩
  rw [judge_eq_arbitrate]
  refine ends_bind ((((kept m hm hk).and (same m hm rfl)).and
    (ends_arbitrate_stigmergy hm.wellFormed quiet)).and shown |>.imp (fun _ _ => id)
      fun _ _ _ => trivial) fun out m₁ h₁ => ?_
  obtain ⟨⟨⟨⟨w, hk₁⟩, -, hrobot⟩, hst⟩, hkey⟩ := h₁
  have hs₁ : m₁.stigmergy.shared = false := hst ▸ hs
  have hm₁ : m₁.Storing := ⟨w.standard.wellFormed, w.standard.tidy, fun e' he' =>
    (hk₁.owned hs₁ he').isValid⟩
  have value : m₁.heap.Denotes e.value (m.value e.value) :=
    (hk₁.owned hs₁ (hst ▸ he)).toDenotes.of_denotes (hk.owned hs he).toDenotes
  refine ends_bind (ends_modify (Q := fun _ m' => Expands m₁ m' ∧ m'.stigmergy = m₁.stigmergy
    ∧ m'.robot = m₁.robot) ⟨⟨rfl, .refl hm₁.wellFormed⟩, rfl, rfl⟩) fun _ m₂ h₂ => ?_
  obtain ⟨x₂, hst₂, hrobot₂⟩ := h₂
  have hm₂ := x₂.storing hm₁
  refine ends_bind ((ends_lossToReport hm₂.wellFormed hm₂.tidy e.version out.2).imp
    (fun _ _ => id) fun _ _ _ => trivial) fun loss m₃ h₃ => ends_pure ?_
  obtain ⟨x₃, hiff, hlost⟩ := h₃
  rw [hst₂, hst, hrobot₂, hrobot] at hiff
  rw [hst₂, hst] at hlost
  have x := x₂.trans x₃
  refine ⟨x.storing hm₁, ?_, hiff, fun callback lost hl => ?_, fun spared => (hkey spared).grows
    x.grows⟩
  · rw [x.same]
    exact hst
  · obtain ⟨hcallback, hrecord⟩ := hlost callback lost hl
    have d₂ := value.grows x₂.grows
    obtain ⟨ft, hf⟩ := hrecord d₂.isValid
    refine ⟨hcallback, ft, ?_, d₂.grows x₃.grows⟩
    rw [hf, x₃.update d₂.isValid]

/-- A conflict is settled up to the point where the loss is reported. -/
theorem ends_adopt_loss (hm : m.Standard) (hk : Keeping flying m)
    (hs : m.stigmergy.shared = false) (hp : m.stigmergy.position? key = some p)
    (he : m.stigmergy.entries[p]? = some e)
    (quiet : LeavesStore (callClosure n) key e.version there m) :
    Ends (adopt (callClosure n) key p e.version there) m (fun out m' =>
        (∃ u, m'.replica? key = some u ∧ (out.2.isSome ↔ m.stigmergy.onConflictLost.isSome
          ∧ e.robot = m.robot ∧ u.robot ≠ m.robot))
        ∧ (∀ callback lost, out.2 = some (callback, lost) →
          m.stigmergy.onConflictLost = some callback ∧ Recounts e.version lost m m')
        ∧ (SparesKey n key e.version there m → m'.heap.Denotes out.1 (.string key)))
      fun _ _ => True := by
  refine ends_bind (ends_judge_loss hm hk hs (Array.mem_of_getElem? he) quiet) fun out m₁ h₁ => ?_
  obtain ⟨hm₁, hst, hiff, hlost, hkey⟩ := h₁
  refine ends_bind (ends_storeVersion hm₁ (hst ▸ hp) out.2.1) fun _ m₂ h₂ => ?_
  obtain ⟨w, hheld, hp₂, -⟩ := h₂
  refine ends_bind ((ends_sendEntry_append hp₂ hheld).imp (fun _ _ => id) fun _ _ => False.elim)
    fun _ m₃ h₃ => ends_pure ?_
  obtain ⟨hheld₃, -, hheap⟩ := h₃
  have g : Grows m₁.heap m₃.heap := hheap ▸ w.grows
  refine ⟨⟨_, hheld₃, hiff⟩, fun callback lost hl => ?_, fun spared => (hkey spared).grows g⟩
  exact (hlost callback lost hl).imp_right fun re => re.grows g

/-- **What the script is told of a loss.** An update conflicts with the entry of its key in a
standard machine whose entries own their values, and the script leaves the store alone when it is
asked. Settling the conflict comes to the point where a loss is reported, if nothing fails before,
and then there is one exactly if the script wants to know of losses, this robot wrote the entry, and
another robot's version is in it now. The function that is called is the one that the script has
named. It is given a record of what the entry was and, if no collection took the key while the
script was asked, the key. -/
theorem tells_loss (op : StigmergyOp) (hm : m.Standard) (hk : Keeping flying m)
    (hs : m.stigmergy.shared = false) (hp : m.stigmergy.position? key = some p)
    (he : m.stigmergy.entries[p]? = some e)
    (hclock : there.clock = e.clock) (hrobot : there.robot ≠ e.robot)
    (quiet : LeavesStore (callClosure n) key e.version there m) :
    receiveStigmergy (callClosure n) op key there m
        = (adopt (callClosure n) key p e.version there >>= fun out =>
          reportLoss (callClosure n) out.1 out.2) m
      ∧ ∀ k loss m', adopt (callClosure n) key p e.version there m = .ok (k, loss) m' →
        (∃ u, m'.replica? key = some u ∧ (loss.isSome ↔ m.stigmergy.onConflictLost.isSome
          ∧ e.robot = m.robot ∧ u.robot ≠ m.robot))
        ∧ (∀ callback lost, loss = some (callback, lost) →
          m.stigmergy.onConflictLost = some callback ∧ Recounts e.version lost m m')
        ∧ (SparesKey n key e.version there m → m'.heap.Denotes k (.string key)) :=
  ⟨receiveStigmergy_of_conflict hp he hclock hrobot,
    fun _ _ _ hrun => (ends_adopt_loss hm hk hs hp he quiet).of_ok hrun⟩

/-! ### Scripts that leave the store alone -/

/-- The call leaves the store as it was. -/
def keepsStore : Check F := fun _ _ m m' => m'.stigmergy = m.stigmergy

/-- If a conflict is settled with calls that are checked for it, the script leaves the store
alone. -/
theorem leavesStore_of_callChecked {collect : List Ref → Action F Unit}
    (hc : ∀ args, Refines (collect args) collectGarbage)
    (hcollect : ∀ args, Confined (collect args)) {out : Ref × Option (Ref × Ref)} (hm : m.Standard)
    (hrun : adopt (callChecked keepsStore collect n) key p here there m = .ok out m') :
    LeavesStore (callClosure n) key here there m := by
  intro callback k mine theirs m₁ hcallback hpresent
  obtain ⟨r, m₂, hcall⟩ := asked_of_adopt hm.wellFormed hcallback hrun hpresent
  have hm₁ := ((ends_present_key hm).of_ok hpresent).1
  have same := (refines_callChecked hc hcollect callback _ m₁ hm₁).of_ok hcall
  refine (ends_of_ok same).imp (fun _ _ h => ?_) fun _ _ => id
  rw [h.2]
  exact of_decide_eq_true (callChecked_eq_ok hcall).2

/-- If moreover the calls watch the key, it is spared. -/
theorem sparesKey_of_callChecked {collect : Action F Unit} (hc : Refines collect collectGarbage)
    (hcollect : Confined collect) {check : Check F} {out : Ref × Option (Ref × Ref)}
    (hm : m.Standard)
    (hrun : adopt (callChecked check (fun args => watch collect (args.headD 0)) n) key p here there
      m = .ok out m') : SparesKey n key here there m := by
  intro callback k mine theirs m₁ hcallback hpresent
  obtain ⟨r, m₂, hcall⟩ := asked_of_adopt hm.wellFormed hcallback hrun hpresent
  have hm₁ := ((ends_present_key hm).of_ok hpresent).1
  have called := (callChecked_eq_ok hcall).1
  have watched :=
    (refines_callWith (hc.watch k) (hcollect.watch k) n callback _ m₁ hm₁).of_ok called
  have same := (refines_callWith (refines_watch collectGarbage k)
    (confined_collectGarbage.watch k) n callback _ m₁ hm₁).of_ok watched
  rw [callWith_collectGarbage] at same
  rw [watched, same]

/-! ### A small machine that loses -/

/-- The heap of the machine: nil, the record that holds nil, a function, the integer seven that is
in the store, and the integer 42. -/
@[irreducible] def disputedHeap : Heap :=
  [.allocValue .nil, .makePermanent 0, .arrayNew, .arrayPush 1 0, .makePermanent 1,
    .allocValue (.closure (.ofCode 0)), .allocValue (.int 7), .makePermanent 3,
    .allocValue (.int 42)].foldl Heap.Request.perform (Heap.make 265)

theorem disputedHeap_eq : disputedHeap = .laidOut
    [(.nil, true), (.table ⟨0, true, false⟩, true), (.closure (.ofCode 0), false), (.int 7, true),
      (.int 42, false)] 218 [[0]] := by
  unfold disputedHeap
  exact Heap.SameBytes.eq (by decide +kernel)

/-- A robot that holds an update of its own, and whose function is both asked about conflicts and
told of losses. -/
def disputed (code : List UInt8) : Machine Empty :=
  { blank { heapSize := 265, robot := 1, stackSize := 20, inboxSlots := 2, outboxSlots := 2 }
      0 1 1 1 disputedHeap with
    code := code.toArray
    stigmergy := {
      capacity := 2
      entries := #[(⟨1, 3, 1⟩ : Version).entry 34 3 (.int 7)]
      onConflict := some 2
      onConflictLost := some 2 } }

/-- The function answers the record of the other robot. -/
def careful : List UInt8 := [Opcode.loadLocal.byte, 3, 0, Opcode.ret1.byte]

/-- Before that it puts nil where the key is. -/
def careless : List UInt8 :=
  [Opcode.pushNil.byte, Opcode.storeLocal.byte, 1, 0] ++ careful

theorem standard_disputed (code : List UInt8) :
    (disputed code).Standard ∧ Keeping [] (disputed code) := by
  have wf : disputedHeap.WellFormed ∧ disputedHeap.Tidy := by
    unfold disputedHeap
    exact (Heap.Built.foldl (.make (by decide)) (by simp [Heap.Request.Allowed])).wellFormed
  have seven : disputedHeap.value 3 = .int 7 ∧ (disputedHeap.header 3).permanent = true := by
    rw [disputedHeap_eq]
    decide +kernel
  have owned : ((⟨1, 3, 1⟩ : Version).entry 34 3 (.int 7)).Owned disputedHeap :=
    ⟨⟨Heap.denotes_of_value seven.1 (by simp [Version.entry]), seven.2⟩, fun hk => by cases hk⟩
  refine ⟨⟨⟨wf.1, wf.2, Nat.zero_le 0, Nat.zero_le 20⟩, show 20 ≤ 65535 by omega, rfl⟩,
    fun _ => ⟨?_, ?_⟩⟩
  · exact Ring.bounded_make 2
  · have inbox : (disputed code).inbox.toList = [] := inbox_toList_make 2
    rw [inbox]
    exact (Heap.custody_nil disputedHeap).add_entry owned (by simp)

/-- The heap when the records are made: behind what was there, the key and the two records with
their names and numbers. -/
def disputedRecords : Heap := .laidOut
  [(.nil, true), (.table ⟨0, true, false⟩, true), (.closure (.ofCode 0), false), (.int 7, true),
    (.int 42, false), (.string 34, false),
    (.table ⟨1, false, false⟩, false), (.int 1, false), (.string 26, false), (.string 27, false),
    (.int 1, false), (.string 28, false),
    (.table ⟨2, false, false⟩, false), (.int 2, false), (.string 26, false), (.string 27, false),
    (.int 1, false), (.string 28, false)] 109
  [[14, 13, 15, 4, 17, 16], [8, 7, 9, 3, 11, 10], [0]]

/-- Whichever function is shown the two records. -/
theorem present_disputed {code : List UInt8} (hcode : code = careful ∨ code = careless) :
    present 34 ⟨1, 3, 1⟩ ⟨2, 4, 1⟩ (disputed code)
      = .ok (5, 6, 12) { disputed code with heap := disputedRecords } := by
  refine (onlyHeap_present 34 _ _).eq_ok_of_answers rfl ?_
  rw [disputed, disputedHeap_eq]
  rcases hcode with rfl | rfl <;> decide +kernel

/-- Both functions lose the entry, and the one that is careless loses the key as well. -/
theorem disputed_answers :
    answersWith (callChecked keepsStore (fun args => watch collectWithin (args.headD 0)) 8 2
      [5, 6, 12] >>= accept 34 0 ⟨1, 3, 1⟩ ⟨2, 4, 1⟩ 5)
      { disputed careful with heap := disputedRecords } (fun out _ => out.2.isSome) = true
    ∧ answersWith (callChecked keepsStore (fun _ => collectWithin) 8 2 [5, 6, 12]
      >>= accept 34 0 ⟨1, 3, 1⟩ ⟨2, 4, 1⟩ 5) { disputed careless with heap := disputedRecords }
      (fun out m' => out.2.map (·.1) = some 2
        ∧ m'.value out.1 = .string Builtin.robot.nameId) = true := by
  -- in one theorem, so that the runs are checked one after the other: each takes much room
  constructor
  · decide +kernel
  · decide +kernel

/-- The loss is told, with the key and the record. -/
theorem tells_loss_careful : ∃ k lost m', adopt (callClosure 8) 34 0 ⟨1, 3, 1⟩ ⟨2, 4, 1⟩
      (disputed careful) = .ok (k, some (2, lost)) m'
    ∧ m'.heap.Denotes k (.string 34) ∧ Recounts ⟨1, 3, 1⟩ lost (disputed careful) m' := by
  obtain ⟨hm, hk⟩ := standard_disputed careful
  obtain ⟨⟨k, loss⟩, m', hrun, hloss⟩ := exists_of_answersWith disputed_answers.1
  rw [← adopt_of_present hm.wellFormed rfl (present_disputed (.inl rfl))] at hrun
  obtain ⟨⟨callback, lost⟩, rfl⟩ := Option.isSome_iff_exists.1 hloss
  have hc : ∀ args : List Ref, Refines (watch collectWithin (args.headD 0))
      (collectGarbage : Action Empty Unit) :=
    fun args => (refines_watch collectWithin _).trans refines_collectWithin
  have hcollect : ∀ args : List Ref, Confined (watch collectWithin (args.headD 0)
      : Action Empty Unit) := fun args => confined_collectWithin.watch _
  have hadopt := (refines_adopt_callChecked hc hcollect _ hm).of_ok hrun
  have hp : (disputed careful).stigmergy.position? 34 = some 0 := by decide +kernel
  have he : (disputed careful).stigmergy.entries[0]?
      = some ((⟨1, 3, 1⟩ : Version).entry 34 3 (.int 7)) := rfl
  have conflict : (⟨2, 4, 1⟩ : Version).clock = 1 ∧ (⟨2, 4, 1⟩ : Version).robot ≠ 1 :=
    ⟨rfl, by decide⟩
  have told := (tells_loss .put hm hk rfl hp he conflict.1 conflict.2
    (leavesStore_of_callChecked hc hcollect hm hrun)).2 k _ m' hadopt
  obtain ⟨-, hlost, hkey⟩ := told
  obtain ⟨hcallback, record⟩ := hlost callback lost rfl
  obtain rfl : 2 = callback := Option.some.inj hcallback
  exact ⟨k, lost, m', hadopt,
    hkey (sparesKey_of_callChecked refines_collectWithin confined_collectWithin hm hrun), record⟩

/-- **A key that was given up.** The function puts nil where the key is before it answers. When it
is told of the loss, the string that it is given is not the key, but a name under which its answer
was read. -/
theorem tells_other : LeavesStore (callClosure 8) 34 ⟨1, 3, 1⟩ ⟨2, 4, 1⟩ (disputed careless)
    ∧ ∃ k lost m', adopt (callClosure 8) 34 0 ⟨1, 3, 1⟩ ⟨2, 4, 1⟩ (disputed careless)
        = .ok (k, some (2, lost)) m'
      ∧ m'.value k = .string Builtin.robot.nameId ∧ Builtin.robot.nameId ≠ 34 := by
  have hm := (standard_disputed careless).1
  obtain ⟨⟨k, loss⟩, m', hrun, hp⟩ := exists_of_answersWith disputed_answers.2
  rw [← adopt_of_present hm.wellFormed rfl (present_disputed (.inr rfl))] at hrun
  obtain ⟨hloss, hkey⟩ := of_decide_eq_true hp
  obtain ⟨⟨callback, lost⟩, rfl, rfl⟩ := Option.map_eq_some_iff.1 hloss
  have hc : ∀ _ : List Ref, Refines (collectWithin : Action Empty Unit) collectGarbage :=
    fun _ => refines_collectWithin
  have hcollect : ∀ _ : List Ref, Confined (collectWithin : Action Empty Unit) :=
    fun _ => confined_collectWithin
  exact ⟨leavesStore_of_callChecked hc hcollect hm hrun, k, lost, m',
    (refines_adopt_callChecked hc hcollect _ hm).of_ok hrun, hkey, by decide⟩

end Machine

end SwarmVm
