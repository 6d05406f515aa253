import SwarmVm.Proofs.Machine.Fresh
import SwarmVm.Proofs.Stigmergy.Store

/-!
# Taking in updates

A robot that takes in an update compares it with what it holds under the key, and keeps one of the
two: the one with the newer clock or, when the clocks are the same, that of the greater robot. This
is `Update.merge`, and `Machine.ends_receiveStigmergy` says that a machine does just that, and tells
the others only what it holds, unless there is a conflict that its script settles itself.

The query of a robot that holds nothing is a message as well, with the clock zero and the value nil.
It is recognised where nothing is held under the key. Where something is, it is compared like an
update, and it may win: clocks go round, and zero is newer than the last fifty of them.

A conflict is settled in two parts. In the first the script is asked, and in the second the entry is
changed and the others are told.

## Main definitions

* `Update.merge` — what is kept of two updates
* `Machine.judge` — the part of settling a conflict in which the script is asked

## Main results

* `Machine.ends_receiveStigmergy` — taking in an update
* `Machine.replica?_eq_iff_of_missQuery` — when a query from a robot without an entry is harmless
-/

namespace SwarmVm

/-- One clock is newer than another when it is at most fifty ticks ahead on the circle. -/
theorem Clock.isNewer_iff (a b : UInt8) : isNewer a b = true ↔
    1 ≤ (256 + a.toNat - b.toNat) % 256 ∧ (256 + a.toNat - b.toNat) % 256 ≤ 50 := by
  have ha := a.toNat_lt
  have hb := b.toNat_lt
  have hsub : (a - b).toNat = (256 + a.toNat - b.toNat) % 256 := by
    rw [UInt8.toNat_sub]
    omega
  simp only [isNewer, window, Bool.and_eq_true, decide_eq_true_eq, UInt8.le_iff_toNat_le, hsub]
  exact Iff.rfl

namespace Update

variable {op : StigmergyOp} {full : Bool}

/-- What is held under a key once an update has been taken in, where conflicts go to the greater
robot. Without room nothing new is held, and a query that carries nil is none. -/
def merge (op : StigmergyOp) (full : Bool) (held : Option Update) (there : Update) :
    Option Update :=
  match held with
  | none => if full ∨ op = .query ∧ there.value = .nil then none else some there
  | some here =>
    if Clock.isNewer there.clock here.clock then some there
    else if there.clock = here.clock ∧ here.robot.toNat < there.robot.toNat then some there
    else some here

theorem merge_of_newer (here there : Update)
    (hnewer : Clock.isNewer there.clock here.clock = true) :
    merge op full (some here) there = some there := by
  rw [merge, if_pos hnewer]

theorem merge_of_greater (here there : Update) (hclock : there.clock = here.clock)
    (hrobot : here.robot.toNat < there.robot.toNat) :
    merge op full (some here) there = some there := by
  simp only [merge, hclock, hrobot, and_self, if_true, ite_self]

theorem merge_of_not (here there : Update) (hnewer : ¬ Clock.isNewer there.clock here.clock = true)
    (hgreater : ¬ (there.clock = here.clock ∧ here.robot.toNat < there.robot.toNat)) :
    merge op full (some here) there = some here := by
  rw [merge, if_neg hnewer, if_neg hgreater]

end Update

namespace Machine

open Heap (Grows)

variable {F α : Type} {m m' m'' : Machine F} {call : Caller F} {op : StigmergyOp} {key k : NameId}
  {here there : Version} {p : Nat} {r : Ref}

/-- The outbox is as it was, or what is held under the key was sent. -/
def Tells (key : NameId) (m m' : Machine F) : Prop :=
  m'.outbox = m.outbox ∨ ∃ op u, m'.replica? key = some u ∧ Emits (u.message op key) m m'

/-! ### Without functions of the script -/

/-- What an object is worth does not change while the heap grows. -/
theorem update_of_grows (g : Grows m.heap m'.heap) (hv : m.heap.isValid there.value = true) :
    m'.update there = m.update there := by
  have hvalue : m'.value there.value = m.value there.value := (g.spares.unaltered hv).value
  rw [update, update, hvalue]

/-- A version is put in the entry of the key, and the entry is sent. -/
theorem ends_storeAndSend (hm : m.Storing) (ho : m.outbox.queue.Bounded)
    (hp : m.stigmergy.position? key = some p) (v : Version) :
    Ends (storeVersion p v >>= fun _ => sendEntry op key p) m (fun _ m' => WorksOn key m m'
      ∧ m'.replica? key = some (m.update v) ∧ Emits ((m.update v).message op key) m m')
      fun _ _ => True := by
  refine ends_bind (ends_storeVersion hm hp v) fun _ m₁ h₁ => ?_
  obtain ⟨w, hu, hp₁, hout⟩ := h₁
  refine (ends_sendEntry w.storing (hout ▸ ho) op hp₁ hu).imp (fun _ m' h => ?_)
    fun _ _ => False.elim
  exact ⟨w.trans h.1, h.2.1, h.2.2.congr hout rfl⟩

theorem ends_receiveNew (hm : m.Storing) (ho : m.outbox.queue.Bounded)
    (hp : m.stigmergy.position? key = none) : Ends (receiveNew op key there) m
      (fun _ m' => WorksOn key m m'
        ∧ m'.replica? key = Update.merge op m.stigmergy.isFull none (m.update there)
        ∧ Tells key m m') fun _ _ => True := by
  have hnil : m.heap.kind there.value = .nil ↔ (m.update there).value = .nil := by
    rw [hm.tidy.kind_eq, update_value, value]
    cases m.heap.value there.value <;> simp [Value.kind]
  refine ends_get_bind ?_
  rw [Update.merge]
  by_cases hquery : op = .query ∧ m.heap.kind there.value = .nil
  · rw [if_pos hquery, if_pos (.inr (hquery.imp_right hnil.1))]
    exact ends_pure ⟨.refl hm, replica?_eq_none_iff.2 hp, .inl rfl⟩
  rw [if_neg hquery]
  by_cases hfull : m.stigmergy.isFull = true
  · rw [if_pos hfull, if_pos (.inl hfull)]
    exact ends_modify ⟨(worksOn_of_registers key hm rfl).1, replica?_eq_none_iff.2 hp, .inl rfl⟩
  rw [if_neg hfull, if_neg fun h => h.elim hfull fun hq => hquery (hq.imp_right hnil.2)]
  refine ends_bind (ends_insertVersion hm hp there) fun _ m₁ h₁ => ends_get_bind ?_
  obtain ⟨w, hu, hp₁, hout⟩ := h₁
  refine (ends_sendEntry w.storing (hout ▸ ho) op hp₁ hu).imp (fun _ m' h => ?_)
    fun _ _ => False.elim
  exact ⟨w.trans h.1, h.2.1, .inr ⟨op, _, h.2.1, h.2.2.congr hout rfl⟩⟩

/-- The part of settling a conflict in which the script is asked: what is done before the entry is
changed. It answers the key, the winner, and what to tell of the loss. -/
def judge (call : Caller F) (key : NameId) (here there : Version) :
    Action F (Ref × Version × Option (Ref × Ref)) := do
  let keyObject ← alloc (.string key)
  let winner ← chooseWinner call keyObject here there
  emit (.conflict key here.robot there.robot winner.robot)
  let loss ← lossToReport here winner
  return (keyObject, winner, loss)

/-- The script is told of a conflict that it has lost. -/
def reportLoss (call : Caller F) (keyObject : Ref) : Option (Ref × Ref) → Action F Unit
  | some (callback, lost) => do let _ ← call callback [keyObject, lost]
  | none => pure ()

/-- A conflict is judged, then the entry is changed and sent, and then the loss is reported. -/
theorem settleConflict_eq (call : Caller F) (key : NameId) (p : Nat) (here there : Version) :
    settleConflict call key p here there = judge call key here there >>= fun out =>
      storeVersion p out.2.1 >>= fun _ => sendEntry .put key p >>= fun _ =>
        reportLoss call out.1 out.2.2 := by
  simp only [settleConflict, judge, bind_assoc, pure_bind]
  refine bind_congr fun keyObject => bind_congr fun winner => bind_congr fun _ =>
    bind_congr fun loss => bind_congr fun _ => bind_congr fun _ => ?_
  cases loss <;> rfl

theorem ends_judge (hm : m.Storing) (hc : m.stigmergy.onConflict = none)
    (hl : m.stigmergy.onConflictLost = none) : Ends (judge call key here there) m
      (fun out m' => (out.2.1 = if here.robot.toNat < there.robot.toNat then there else here)
        ∧ out.2.2 = none ∧ Grows m.heap m'.heap
        ∧ m' = { m with heap := m'.heap, log := m'.log }) fun _ _ => True := by
  refine ends_bind ((ends_onHeap (Heap.grows_allocValue hm.wellFormed (by simp))).imp
    (fun _ _ => id) fun _ _ _ => trivial) fun keyObject m₁ h₁ => ?_
  obtain ⟨h, ⟨g, -⟩, rfl⟩ := h₁
  refine ends_bind (Q := fun w m' => (w = if here.robot.toNat < there.robot.toNat then there
    else here) ∧ m' = { m with heap := h }) ?_ fun winner m₂ h₂ => ?_
  · refine ends_get_bind ?_
    simp only [hc]
    exact ends_pure ⟨rfl, rfl⟩
  obtain ⟨rfl, rfl⟩ := h₂
  refine ends_bind (ends_modify (Q := fun _ m' => m' = { m with heap := h, log := m'.log }) rfl)
    fun _ m₃ h₃ => ?_
  refine ends_bind (Q := fun loss m' => loss = none ∧ m' = m₃) ?_ fun loss m₄ h₄ => ?_
  · refine ends_get_bind ?_
    rw [h₃]
    simp only [hl]
    exact ends_pure ⟨rfl, rfl⟩
  obtain ⟨rfl, rfl⟩ := h₄
  rw [h₃]
  exact ends_pure ⟨rfl, rfl, g, rfl⟩

/-- A conflict goes to the greater robot. -/
theorem ends_settleConflict (hm : m.Storing) (ho : m.outbox.queue.Bounded)
    (hc : m.stigmergy.onConflict = none) (hl : m.stigmergy.onConflictLost = none)
    (hp : m.stigmergy.position? key = some p) (hhere : m.heap.isValid here.value = true)
    (hthere : m.heap.isValid there.value = true) :
    Ends (settleConflict call key p here there) m (fun _ m' => WorksOn key m m'
      ∧ m'.replica? key = some (m.update (if here.robot.toNat < there.robot.toNat then there
        else here))
      ∧ Tells key m m') fun _ _ => True := by
  rw [settleConflict_eq]
  refine ends_bind (ends_judge hm hc hl) fun out m₁ h₁ => ?_
  obtain ⟨keyObject, winner, loss⟩ := out
  obtain ⟨hwinner, hloss, g, he⟩ := h₁
  simp only at hwinner hloss
  subst hwinner hloss
  have w₁ : WorksOn key m m₁ := by
    rw [he]
    have w := worksOn_of_heap key hm g
    exact w.trans (worksOn_of_registers key w.storing rfl).1
  have hp₁ : m₁.stigmergy.position? key = some p := by
    rw [he]
    exact hp
  have hout : m₁.outbox = m.outbox := by rw [he]
  have hupdate : m₁.update (if here.robot.toNat < there.robot.toNat then there else here)
      = m.update (if here.robot.toNat < there.robot.toNat then there else here) := by
    refine update_of_grows g ?_
    split
    · exact hthere
    · exact hhere
  rw [← bind_assoc]
  refine ends_bind (ends_storeAndSend w₁.storing (hout ▸ ho) hp₁ _) fun _ m₂ h₂ => ends_pure ?_
  rw [hupdate] at h₂
  exact ⟨w₁.trans h₂.1, h₂.2.1, .inr ⟨.put, _, h₂.2.1, h₂.2.2.congr hout rfl⟩⟩

/-- **Taking in an update.** What is held is `Update.merge` of what was held and the update, and
what is sent is what is held. Where the update is in conflict with what is held, this is so if the
script has no functions for conflicts. -/
theorem ends_receiveStigmergy (hm : m.Storing) (ho : m.outbox.queue.Bounded)
    (quiet : ∀ u, m.replica? key = some u → there.clock = u.clock → there.robot ≠ u.robot →
      m.stigmergy.onConflict = none ∧ m.stigmergy.onConflictLost = none)
    (hthere : m.heap.isValid there.value = true) :
    Ends (receiveStigmergy call op key there) m (fun _ m' => WorksOn key m m'
      ∧ m'.replica? key
        = Update.merge op m.stigmergy.isFull (m.replica? key) (m.update there)
      ∧ Tells key m m') fun _ _ => True := by
  refine ends_get_bind ?_
  cases hp : m.stigmergy.position? key with
  | none =>
    rw [replica?_eq_none_iff.2 hp]
    simp only [hp]
    exact ends_receiveNew hm ho hp
  | some p =>
    obtain ⟨e, hs, -⟩ := Stigmergy.exists_of_position? hp
    have hu := replica?_of_position? hp hs
    have hhere := hm.entries e (Array.mem_of_getElem? hs)
    rw [hu]
    simp only [hp, hs]
    by_cases hnewer : Clock.isNewer there.clock e.version.clock = true
    · rw [if_pos hnewer, Update.merge_of_newer (m.update e.version) (m.update there) hnewer]
      refine (ends_storeAndSend hm ho hp there).imp (fun _ m' h => ?_) fun _ _ => id
      exact ⟨h.1, h.2.1, .inr ⟨.put, _, h.2.1, h.2.2⟩⟩
    rw [if_neg hnewer]
    by_cases hconflict : there.clock = e.version.clock ∧ there.robot ≠ e.version.robot
    · rw [if_pos hconflict]
      obtain ⟨hc, hl⟩ := quiet _ hu hconflict.1 hconflict.2
      refine (ends_settleConflict hm ho hc hl hp hhere hthere).imp (fun _ m' h => ⟨h.1, ?_, h.2.2⟩)
        fun _ _ => id
      rw [h.2.1]
      split
      · next hlt =>
        rw [Update.merge_of_greater (m.update e.version) (m.update there) hconflict.1 hlt]
      · next hlt =>
        rw [Update.merge_of_not (m.update e.version) (m.update there) hnewer fun h => hlt h.2]
    rw [if_neg hconflict, Update.merge_of_not (m.update e.version) (m.update there) hnewer]
    · split
      · refine (ends_sendEntry hm ho .put hp hu).imp (fun _ m' h => ?_) fun _ _ => False.elim
        exact ⟨h.1, h.2.1, .inr ⟨.put, _, h.2.1, h.2.2⟩⟩
      · exact ends_pure ⟨.refl hm, hu, .inl rfl⟩
    · rintro ⟨hclock, hlt⟩
      refine hconflict ⟨hclock, fun he => ?_⟩
      rw [update_robot, update_robot, he] at hlt
      exact lt_irrefl _ hlt

/-! ### Queries from robots that hold nothing -/

/-- **When a miss query is harmless.** The query of a robot that holds nothing carries nil and the
clock zero. It leaves the store of a machine as it is exactly when the machine holds nothing under
the key, or its clock is none of the last fifty, and, where the clock is zero, the robot that asks
is not greater than the one that wrote. In all other cases the entry is lost.

Only a clock of zero that another robot wrote is a conflict. So it is only then that the script must
have no functions for conflicts. -/
theorem replica?_eq_iff_of_missQuery {robot : RobotId} (hm : m.Storing) (ho : m.outbox.queue.Bounded)
    (quiet : ∀ u, m.replica? key = some u → u.clock = 0 → u.robot ≠ robot →
      m.stigmergy.onConflict = none ∧ m.stigmergy.onConflictLost = none)
    (hv : m.heap.isValid r = true) (hr : m.value r = .nil)
    (hok : receiveStigmergy call .query key ⟨robot, r, 0⟩ m = .ok () m') :
    m'.replica? = m.replica? ↔ ∀ u, m.replica? key = some u →
      (1 ≤ u.clock.toNat ∧ u.clock.toNat ≤ 205)
        ∨ (u.clock = 0 ∧ robot.toNat ≤ u.robot.toNat) := by
  obtain ⟨w, hu, -⟩ := (ends_receiveStigmergy hm ho (fun u hu hclock hrobot =>
    quiet u hu hclock.symm hrobot.symm) hv).of_ok hok
  have hstore : m'.replica? = m.replica? ↔ m'.replica? key = m.replica? key := by
    refine ⟨fun h => congrFun h key, fun h => funext fun k => ?_⟩
    by_cases hk : k = key
    · rw [hk, h]
    · exact w.others k hk
  have hnil : m.update ⟨robot, r, 0⟩ = ⟨robot, 0, .nil⟩ := by rw [update, hr]
  rw [hstore, hu, hnil]
  cases hheld : m.replica? key with
  | none => simp [Update.merge]
  | some u =>
    have hlt := u.clock.toNat_lt
    -- zero is newer than the last fifty clocks
    have hzero : Clock.isNewer 0 u.clock = true ↔ 206 ≤ u.clock.toNat := by
      rw [Clock.isNewer_iff, UInt8.toNat_zero]
      omega
    have hclock : u.clock = 0 ↔ u.clock.toNat = 0 := UInt8.toNat_inj.symm
    simp only [Option.some.injEq, forall_eq', hclock]
    by_cases hlast : 206 ≤ u.clock.toNat
    · rw [Update.merge_of_newer u ⟨robot, 0, .nil⟩ (hzero.2 hlast)]
      refine iff_of_false (fun he => ?_) (by omega)
      rw [← Option.some.inj he, UInt8.toNat_zero] at hlast
      omega
    by_cases hlost : 0 = u.clock ∧ u.robot.toNat < robot.toNat
    · rw [Update.merge_of_greater u ⟨robot, 0, .nil⟩ hlost.1 hlost.2]
      refine iff_of_false (fun he => ?_) ?_
      · have hrobot := hlost.2
        rw [← Option.some.inj he] at hrobot
        exact lt_irrefl _ hrobot
      · have := hclock.1 hlost.1.symm
        omega
    · rw [Update.merge_of_not u ⟨robot, 0, .nil⟩ (fun h => hlast (hzero.1 h)) hlost]
      refine iff_of_true rfl ?_
      rcases Nat.eq_zero_or_pos u.clock.toNat with h | h
      · exact .inr ⟨h, not_lt.1 fun hrobot => hlost ⟨(hclock.2 h).symm, hrobot⟩⟩
      · exact .inl (by omega)

theorem storing_blank {s : Settings} {nil record globals listeners : Ref} {heap : Heap}
    (wf : heap.WellFormed) (tidy : heap.Tidy) :
    (blank s nil record globals listeners heap : Machine F).Storing
      ∧ (blank s nil record globals listeners heap : Machine F).outbox.queue.Bounded :=
  ⟨⟨wf, tidy, fun e he => absurd he (Array.not_mem_empty e)⟩, Ring.bounded_make _⟩

/-- The heap of a small machine, with the integer seven in it. -/
def sevenHeap : Heap := Heap.Request.perform smallHeap (.allocValue (.int 7))

theorem sevenHeap_eq :
    sevenHeap = .laidOut (coreValues ++ [(.int 7, false)]) 101 coreSegments := by
  rw [sevenHeap, smallHeap_eq]
  exact Heap.SameBytes.eq (by decide +kernel)

/-- A robot that holds nothing yet. -/
def newcomer (robot : RobotId) : Machine Empty :=
  blank { heapSize := 192, robot } 0 1 2 3 sevenHeap

theorem storing_newcomer (robot : RobotId) :
    (newcomer robot).Storing ∧ (newcomer robot).outbox.queue.Bounded := by
  have hl : smallHeap.Supports [3, 2, 1, 0] :=
    (ends_coreObjects (by decide)).of_ok coreObjects_small
  have wf : sevenHeap.WellFormed ∧ sevenHeap.Tidy :=
    Heap.Request.wellFormed_perform hl.wellFormed hl.tidy fun _ => by simp
  exact storing_blank wf.1 wf.2

/-- A robot that holds an update of another one, at clock 250. -/
def aged : Machine Empty := stateAfter (insertVersion 34 ⟨2, 4, 250⟩) (newcomer 1)

theorem worksOn_aged : WorksOn 34 (newcomer 1) aged
    ∧ aged.replica? 34 = some ⟨2, 250, .int 7⟩ ∧ aged.outbox = (newcomer 1).outbox := by
  have run : answers (insertVersion 34 ⟨2, 4, 250⟩) (newcomer 1) = true
      ∧ (newcomer 1).stigmergy.position? 34 = none
      ∧ (newcomer 1).update ⟨2, 4, 250⟩ = ⟨2, 250, .int 7⟩ := by
    rw [newcomer, sevenHeap_eq]
    decide +kernel
  obtain ⟨hok, hfree, hseven⟩ := run
  obtain ⟨w, hu, -, hout⟩ :=
    (ends_insertVersion (storing_newcomer 1).1 hfree ⟨2, 4, 250⟩).of_ok (eq_ok_of_answers hok)
  exact ⟨w, hseven ▸ hu, hout⟩

/-- Robot 3 asks for the key. -/
def askedByMiss : Machine Empty :=
  stateAfter (receiveStigmergy (fun _ _ => fail .type) .query 34 ⟨3, 0, 0⟩) aged

theorem receive_askedByMiss :
    receiveStigmergy (fun _ _ => fail .type) .query 34 ⟨3, 0, 0⟩ aged = .ok () askedByMiss := by
  refine eq_ok_of_answers ?_
  rw [aged, newcomer, sevenHeap_eq]
  decide +kernel

theorem replica?_askedByMiss : aged.Storing ∧ aged.value 0 = .nil
    ∧ aged.replica? 34 = some ⟨2, 250, .int 7⟩ ∧ askedByMiss.replica? ≠ aged.replica? := by
  obtain ⟨w, hu, hout⟩ := worksOn_aged
  have hnil : aged.heap.isValid 0 = true ∧ aged.value 0 = .nil := by
    rw [aged, newcomer, sevenHeap_eq]
    decide +kernel
  have hb : aged.outbox.queue.Bounded := by
    rw [hout]
    exact (storing_newcomer 1).2
  have hiff := replica?_eq_iff_of_missQuery w.storing hb
    (fun _ _ _ _ => ⟨w.onConflict, w.onConflictLost⟩) hnil.1 hnil.2 receive_askedByMiss
  refine ⟨w.storing, hnil.2, hu, fun he => ?_⟩
  have hclock := hiff.1 he _ hu
  revert hclock
  decide

/-- The query has put nil in place of the update. -/
theorem missQuery_erases : aged.replica? 34 = some ⟨2, 250, .int 7⟩
    ∧ askedByMiss.replica? 34 = some ⟨3, 0, .nil⟩ :=
  ⟨worksOn_aged.2.1, by rw [askedByMiss, aged, newcomer, sevenHeap_eq]; decide +kernel⟩

end Machine

end SwarmVm
