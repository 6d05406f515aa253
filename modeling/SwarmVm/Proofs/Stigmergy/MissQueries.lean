import SwarmVm.Machine.Inbox
import SwarmVm.Proofs.Stigmergy.Verdicts

/-!
# Answers to queries of robots that hold nothing

What a robot tells the others when it takes in an update for a key that it holds is
`Update.reply`: the update that is newer, or of two with the same clock that of the greater robot.
An update that is older is answered only if it comes with a query.

A robot that holds nothing asks with a placeholder, the clock zero and the value nil, and the
placeholder is compared like an update. It is the older one only for the first fifty clocks, or
where the entry has the clock zero as well and was written by a greater robot
(`Update.OutdatesMiss`). Then the query is answered with the entry. Else nothing is sent, or the
placeholder itself.

## Main definitions

* `Update.reply` — what is sent when an update meets the one that is held
* `Update.OutdatesMiss` — the placeholder of a robot counts as older

## Main results

* `Machine.ends_receiveStigmergy_reply` — what is sent
* `Machine.answers_missQuery` — when a query of a robot that holds nothing is answered
* `Machine.missQuery_unanswered` — a query that is not
-/

namespace SwarmVm

namespace Update

variable {op : StigmergyOp} {robot : RobotId}

/-- What is sent when the update `there` meets the update `here` that is held. -/
def reply (op : StigmergyOp) (here there : Update) : Option Update :=
  if Clock.isNewer there.clock here.clock then some there
  else if there.clock = here.clock ∧ there.robot ≠ here.robot then
    some (if here.robot.toNat < there.robot.toNat then there else here)
  else if op = .query ∧ Clock.isNewer here.clock there.clock then some here
  else none

theorem reply_of_newer (here there : Update)
    (hnewer : Clock.isNewer there.clock here.clock = true) :
    reply op here there = some there := by
  rw [reply, if_pos hnewer]

theorem reply_of_conflict (here there : Update) (hclock : there.clock = here.clock)
    (hrobot : there.robot ≠ here.robot) :
    reply op here there = some (if here.robot.toNat < there.robot.toNat then there else here) := by
  rw [reply, hclock, Clock.isNewer_self, if_neg Bool.false_ne_true, if_pos ⟨rfl, hrobot⟩]

theorem reply_of_older (here there : Update)
    (hnewer : ¬ Clock.isNewer there.clock here.clock = true)
    (hconflict : ¬ (there.clock = here.clock ∧ there.robot ≠ here.robot))
    (hquery : op = .query ∧ Clock.isNewer here.clock there.clock = true) :
    reply op here there = some here := by
  rw [reply, if_neg hnewer, if_neg hconflict, if_pos hquery]

theorem reply_of_not (here there : Update) (hnewer : ¬ Clock.isNewer there.clock here.clock = true)
    (hconflict : ¬ (there.clock = here.clock ∧ there.robot ≠ here.robot))
    (hquery : ¬ (op = .query ∧ Clock.isNewer here.clock there.clock = true)) :
    reply op here there = none := by
  rw [reply, if_neg hnewer, if_neg hconflict, if_neg hquery]

/-- The placeholder of a robot that holds nothing is older than the update: the clock of the update
is one of the first fifty, or it is zero as well and the update is from a greater robot. -/
def OutdatesMiss (robot : RobotId) (u : Update) : Prop :=
  (1 ≤ u.clock.toNat ∧ u.clock.toNat ≤ 50) ∨ (u.clock = 0 ∧ robot.toNat < u.robot.toNat)

instance (robot : RobotId) (u : Update) : Decidable (u.OutdatesMiss robot) :=
  inferInstanceAs (Decidable ((1 ≤ u.clock.toNat ∧ u.clock.toNat ≤ 50)
    ∨ (u.clock = 0 ∧ robot.toNat < u.robot.toNat)))

theorem OutdatesMiss.not_isNewer {u : Update} (h : u.OutdatesMiss robot) :
    ¬ Clock.isNewer 0 u.clock = true := by
  rw [Clock.isNewer_iff, UInt8.toNat_zero]
  rcases h with hfirst | ⟨hzero, -⟩
  · omega
  · rw [hzero, UInt8.toNat_zero]
    omega

/-- An update that outdates the placeholder is kept, -/
theorem OutdatesMiss.merge_eq {u : Update} (h : u.OutdatesMiss robot) (full : Bool) :
    merge op full (some u) ⟨robot, 0, .nil⟩ = some u := by
  refine merge_of_not u ⟨robot, 0, .nil⟩ h.not_isNewer ?_
  rintro ⟨hclock, hgreater⟩
  rcases h with hfirst | ⟨-, hless⟩
  · rw [← show (0 : UInt8) = u.clock from hclock, UInt8.toNat_zero] at hfirst
    omega
  · exact lt_asymm hless hgreater

/-- and sent. -/
theorem OutdatesMiss.reply_eq {u : Update} (h : u.OutdatesMiss robot) :
    u.reply .query ⟨robot, 0, .nil⟩ = some u := by
  rcases h with hfirst | ⟨hzero, hgreater⟩
  · have hclock : (0 : UInt8) ≠ u.clock := by
      intro he
      rw [← he, UInt8.toNat_zero] at hfirst
      omega
    have holder : Clock.isNewer u.clock 0 = true := by
      rw [Clock.isNewer_iff, UInt8.toNat_zero]
      omega
    have hnewer : u.OutdatesMiss robot := .inl hfirst
    exact reply_of_older u ⟨robot, 0, .nil⟩ hnewer.not_isNewer
      (fun hconflict => hclock hconflict.1) ⟨rfl, holder⟩
  · have hne : robot ≠ u.robot := by
      rintro rfl
      exact lt_irrefl _ hgreater
    rw [reply_of_conflict u ⟨robot, 0, .nil⟩ hzero.symm hne, if_neg (lt_asymm hgreater)]

/-- Else nothing is sent, or the placeholder. -/
theorem reply_of_not_outdatesMiss {u : Update} (h : ¬ u.OutdatesMiss robot) :
    u.reply .query ⟨robot, 0, .nil⟩ = none
      ∨ u.reply .query ⟨robot, 0, .nil⟩ = some ⟨robot, 0, .nil⟩ := by
  rw [OutdatesMiss, not_or, not_and, not_and] at h
  obtain ⟨hfirst, hzero⟩ := h
  rw [reply]
  split
  · exact .inr rfl
  split
  · next hconflict =>
    obtain ⟨hclock, hrobot⟩ := hconflict
    have hle : u.robot.toNat ≤ robot.toNat := not_lt.1 (hzero hclock.symm)
    have hlt : u.robot.toNat < robot.toNat :=
      lt_of_le_of_ne hle fun he => hrobot (UInt16.toNat_inj.1 he).symm
    rw [if_pos hlt]
    exact .inr rfl
  · refine .inl (if_neg ?_)
    rintro ⟨-, holder⟩
    have hlt := u.clock.toNat_lt
    rw [Clock.isNewer_iff, UInt8.toNat_zero] at holder
    exact hfirst (by omega) (by omega)

end Update

/-- An outbox once the update is sent, if there is one. -/
def Outbox.tell (o : Outbox) (key : NameId) : Option Update → Outbox
  | none => o
  | some u => (o.append (u.message .put key)).2

namespace Machine

variable {F G : Type} {m m' : Machine F} {call : Caller F} {op : StigmergyOp} {key : NameId}
  {there v : Version} {p : Nat} {r : Ref} {u : Update}

/-- A version is stored, and sent once. -/
theorem ends_storeVersion_tell (hm : m.Storing) (hp : m.stigmergy.position? key = some p)
    (v : Version) : Ends (storeVersion p v >>= fun _ => sendEntry .put key p) m
      (fun _ m' => m'.outbox = m.outbox.tell key (some (m.update v)))
      fun e _ => e = .fault .outOfMemory := by
  refine ends_bind (((ends_storeVersion hm hp v).and (fails_storeVersion p v m)).imp
    (fun _ _ h => h.1) fun _ _ h => h.2) fun _ m₁ h₁ => ?_
  obtain ⟨-, hheld, hp₁, hout⟩ := h₁
  refine (ends_sendEntry_append hp₁ hheld).imp (fun _ m' h => ?_) fun _ _ => False.elim
  rw [h.2.1, hout]
  rfl

/-- Where the script has no say, there is a winner as soon as there is room for the key. -/
theorem fails_judge {here : Version} (hm : m.Storing) (hc : m.stigmergy.onConflict = none) :
    Ends (judge call key here there) m (fun _ _ => True) fun e _ => e = .fault .outOfMemory := by
  refine ends_bind (ends_alloc hm.wellFormed (by simp) (by simp)) fun keyObject m₁ h₁ => ?_
  obtain ⟨x₁, -⟩ := h₁
  have hc₁ : m₁.stigmergy.onConflict = none := by
    rw [x₁.same]
    exact hc
  refine ends_bind (Q := fun _ m' => m' = m₁) ?_ fun winner m₂ he => ?_
  · refine ends_get_bind ?_
    rw [hc₁]
    exact ends_pure rfl
  subst he
  refine ends_bind (ends_modify (Q := fun _ m' => m'.heap = m₂.heap) rfl) fun _ m₃ h₃ => ?_
  have hm₂ := x₁.storing hm
  exact ends_bind (ends_lossToReport (h₃ ▸ hm₂.wellFormed) (h₃ ▸ hm₂.tidy) here winner)
    fun _ _ _ => ends_pure trivial

/-- A conflict is settled for the greater robot, and its update is sent. -/
theorem ends_settleConflict_tell {here : Version} (hm : m.Storing)
    (hc : m.stigmergy.onConflict = none) (hl : m.stigmergy.onConflictLost = none)
    (hp : m.stigmergy.position? key = some p) (hhere : m.heap.isValid here.value = true)
    (hthere : m.heap.isValid there.value = true) :
    Ends (settleConflict call key p here there) m (fun _ m' => m'.outbox = m.outbox.tell key
        (some (if here.robot.toNat < there.robot.toNat then m.update there else m.update here)))
      fun e _ => e = .fault .outOfMemory := by
  rw [settleConflict_eq]
  refine ends_bind (((ends_judge hm hc hl).and (fails_judge hm hc)).imp (fun _ _ h => h.1)
    fun _ _ h => h.2) fun out m₁ h₁ => ?_
  obtain ⟨keyObject, winner, loss⟩ := out
  obtain ⟨hwinner, hloss, g, he⟩ := h₁
  simp only at hwinner hloss
  subst hloss
  have hm₁ : m₁.Storing := by
    rw [he]
    exact (worksOn_of_registers key (worksOn_of_heap key hm g).storing rfl).1.storing
  have hp₁ : m₁.stigmergy.position? key = some p := by
    rw [he]
    exact hp
  have hupdate : m₁.update winner
      = if here.robot.toNat < there.robot.toNat then m.update there else m.update here := by
    rw [hwinner]
    split
    · exact update_of_grows g hthere
    · exact update_of_grows g hhere
  rw [← bind_assoc]
  refine ends_bind (ends_storeVersion_tell hm₁ hp₁ winner) fun _ m₂ h₂ => ends_pure ?_
  rw [h₂, hupdate]
  rw [he]

/-- **What is sent.** An update meets the one that is held under its key. Only an update that is
newer, or has the same clock, takes room. -/
theorem ends_receiveStigmergy_reply (hm : m.Storing) (hc : m.stigmergy.onConflict = none)
    (hl : m.stigmergy.onConflictLost = none) (hheld : m.replica? key = some u)
    (hthere : m.heap.isValid there.value = true) : Ends (receiveStigmergy call op key there) m
      (fun _ m' => m'.outbox = m.outbox.tell key (u.reply op (m.update there)))
      fun e _ => e = .fault .outOfMemory
        ∧ (Clock.isNewer there.clock u.clock = true ∨ there.clock = u.clock) := by
  refine ends_get_bind ?_
  cases hp : m.stigmergy.position? key with
  | none =>
    rw [replica?_eq_none_iff.2 hp] at hheld
    cases hheld
  | some p =>
    obtain ⟨e, hs, -⟩ := Stigmergy.exists_of_position? hp
    have hhere := hm.entries e (Array.mem_of_getElem? hs)
    have hu := replica?_of_position? hp hs
    obtain rfl : m.update e.version = u := Option.some.inj (hu.symm.trans hheld)
    simp only [hp, hs]
    by_cases hnewer : Clock.isNewer there.clock e.version.clock = true
    · rw [if_pos hnewer, Update.reply_of_newer (m.update e.version) (m.update there) hnewer]
      exact (ends_storeVersion_tell hm hp there).imp (fun _ _ => id) fun _ _ h => ⟨h, .inl hnewer⟩
    rw [if_neg hnewer]
    by_cases hconflict : there.clock = e.version.clock ∧ there.robot ≠ e.version.robot
    · rw [if_pos hconflict,
        Update.reply_of_conflict (m.update e.version) (m.update there) hconflict.1 hconflict.2]
      exact (ends_settleConflict_tell hm hc hl hp hhere hthere).imp (fun _ _ => id)
        fun _ _ h => ⟨h, .inr hconflict.1⟩
    rw [if_neg hconflict]
    by_cases hquery : op = .query ∧ Clock.isNewer e.version.clock there.clock = true
    · rw [if_pos hquery,
        Update.reply_of_older (m.update e.version) (m.update there) hnewer hconflict hquery]
      exact (ends_sendEntry_append hp hu).imp (fun _ _ h => h.2.1) fun _ _ => False.elim
    · rw [if_neg hquery,
        Update.reply_of_not (m.update e.version) (m.update there) hnewer hconflict hquery]
      exact ends_pure rfl

/-! ### Queries of robots that hold nothing -/

/-- A robot without the key takes in what another one has put, as long as there is room. -/
theorem ends_receiveStigmergy_put (hm : m.Storing) (hheld : m.replica? key = none)
    (hroom : m.stigmergy.isFull = false) (there : Version) :
    Ends (receiveStigmergy call .put key there) m
      (fun _ m' => m'.replica? key = some (m.update there)) fun e _ => e = .fault .outOfMemory := by
  have hp := replica?_eq_none_iff.1 hheld
  refine ends_get_bind ?_
  simp only [hp]
  refine ends_get_bind ?_
  rw [if_neg (by simp), hroom, if_neg (by simp)]
  refine ends_bind (((ends_insertVersion hm hp there).and (fails_insertVersion key there m)).imp
    (fun _ _ h => h.1) fun _ _ h => h.2) fun _ m₁ h₁ => ends_get_bind ?_
  obtain ⟨-, hu, hp₁, -⟩ := h₁
  exact (ends_sendEntry_append hp₁ hu).imp (fun _ _ h => h.1) fun _ _ => False.elim

/-- **When a miss query is answered.** The query of a robot that holds nothing carries nil and the
clock zero. A machine that holds `u` under the key, and whose script settles no conflicts, puts `u`
in the outbox if `u` outdates the placeholder, and keeps it; else it puts nothing in the outbox, or
the placeholder. It fails for want of room only, and never where the clock is one of the first
fifty. A robot that asks, and still holds nothing, holds `u` once it has taken in the answer. -/
theorem answers_missQuery (call : Caller F) (hm : m.Storing) (ho : m.outbox.queue.Bounded)
    (hc : m.stigmergy.onConflict = none) (hl : m.stigmergy.onConflictLost = none)
    (hheld : m.replica? key = some u) (hv : m.heap.isValid r = true) (hr : m.value r = .nil)
    (robot : RobotId) :
    Ends (dispatch call (.stigmergy .query robot key r 0)) m
      (fun _ m' => if u.OutdatesMiss robot then
          m'.replica? key = some u ∧ m'.outbox = (m.outbox.append (u.message .put key)).2
            ∧ u.message .put key ∈ m'.outbox.toList
        else m'.outbox = m.outbox
          ∨ m'.outbox = (m.outbox.append (Update.message .put key ⟨robot, 0, .nil⟩)).2)
      (fun e _ => e = .fault .outOfMemory ∧ ¬ (1 ≤ u.clock.toNat ∧ u.clock.toNat ≤ 50))
    ∧ ∀ {asking : Machine G} {call' : Caller G} {r' : Ref}, asking.Storing →
      asking.replica? key = none → asking.stigmergy.isFull = false → asking.value r' = u.value →
      Ends (dispatch call' (.stigmergy .put u.robot key r' u.clock)) asking
        (fun _ m' => m'.replica? key = some u) fun e _ => e = .fault .outOfMemory := by
  constructor
  · have hnil : m.update ⟨robot, r, 0⟩ = ⟨robot, 0, .nil⟩ := by rw [update, hr]
    have hthere : m.heap.isValid (Version.mk robot r 0).value = true := hv
    refine ((ends_receiveStigmergy_reply hm hc hl hheld hthere).and
      (ends_receiveStigmergy hm ho (fun _ _ _ _ => ⟨hc, hl⟩) hthere)).imp (fun _ m' h => ?_) fun e _ h => ⟨h.1.1, ?_⟩
    · obtain ⟨hout, -, hkept, -⟩ := h
      rw [hnil] at hout hkept
      split
      · next houtdates =>
        rw [houtdates.reply_eq] at hout
        rw [hheld, houtdates.merge_eq] at hkept
        exact ⟨hkept, hout, hout ▸ (Outbox.mem_append ho (u.message .put key)).2.1⟩
      · next hnot =>
        rcases Update.reply_of_not_outdatesMiss hnot with hreply | hreply
        · rw [hreply] at hout
          exact .inl hout
        · rw [hreply] at hout
          exact .inr hout
    · have hlt := u.clock.toNat_lt
      rcases h.1.2 with hnewer | hzero
      · rw [Clock.isNewer_iff, UInt8.toNat_zero] at hnewer
        omega
      · rw [show u.clock.toNat = 0 from congrArg UInt8.toNat hzero.symm]
        omega
  · intro asking call' r' hm' hheld' hroom hr'
    have hu : asking.update ⟨u.robot, r', u.clock⟩ = u := by rw [update, hr']
    refine (ends_receiveStigmergy_put hm' hheld' hroom ⟨u.robot, r', u.clock⟩).imp
      (fun _ _ h => ?_) fun _ _ => id
    rw [h, hu]

/-- A robot that holds an update of another one, at the given clock. -/
def stocked (clock : UInt8) : Machine Empty :=
  stateAfter (insertVersion 34 ⟨2, 4, clock⟩) (newcomer 1)

theorem worksOn_stocked (clock : UInt8)
    (hok : answers (insertVersion 34 ⟨2, 4, clock⟩) (newcomer 1) = true) :
    WorksOn 34 (newcomer 1) (stocked clock)
      ∧ (stocked clock).replica? 34 = some ⟨2, clock, .int 7⟩
      ∧ (stocked clock).outbox.queue.Bounded := by
  have before : (newcomer 1).stigmergy.position? 34 = none ∧ (newcomer 1).value 4 = .int 7 := by
    rw [newcomer, sevenHeap_eq]
    decide +kernel
  have hseven : (newcomer 1).update ⟨2, 4, clock⟩ = ⟨2, clock, .int 7⟩ :=
    congrArg (Update.mk 2 clock) before.2
  obtain ⟨w, hu, -, hout⟩ := (ends_insertVersion (storing_newcomer 1).1 before.1
    ⟨2, 4, clock⟩).of_ok (eq_ok_of_answers hok)
  refine ⟨w, hu.trans (congrArg some hseven), ?_⟩
  rw [stocked, hout]
  exact (storing_newcomer 1).2

/-- At clock 50 the robot that asks gets the update. -/
theorem answers_missQuery_stocked :
    (∃ m', dispatch (fun _ _ => fail .type) (.stigmergy .query 3 34 0 0) (stocked 50) = .ok () m'
      ∧ Message.stigmergy .put 2 34 (.int 7) 50 ∈ m'.outbox.toList)
    ∧ ∃ m', dispatch (fun _ _ => fail .type) (.stigmergy .put 2 34 4 50) (newcomer 3) = .ok () m'
      ∧ m'.replica? 34 = some ⟨2, 50, .int 7⟩ := by
  have asked : answers (insertVersion 34 ⟨2, 4, 50⟩) (newcomer 1) = true
      ∧ (stocked 50).heap.isValid 0 = true ∧ (stocked 50).value 0 = .nil
      ∧ answers (dispatch (fun _ _ => fail .type) (.stigmergy .query 3 34 0 0)) (stocked 50)
        = true := by
    rw [stocked, newcomer, sevenHeap_eq]
    decide +kernel
  have asking : (newcomer 3).replica? 34 = none ∧ (newcomer 3).stigmergy.isFull = false
      ∧ (newcomer 3).value 4 = .int 7
      ∧ answers (dispatch (fun _ _ => fail .type) (.stigmergy .put 2 34 4 50)) (newcomer 3)
        = true := by
    rw [newcomer, sevenHeap_eq]
    decide +kernel
  obtain ⟨hstocked, hvalid, hnil, hquery⟩ := asked
  obtain ⟨hfree, hroom, hseven, hput⟩ := asking
  obtain ⟨w, hheld, hb⟩ := worksOn_stocked 50 hstocked
  have houtdates : (⟨2, 50, .int 7⟩ : Update).OutdatesMiss 3 := by decide
  have hasked := answers_missQuery (G := Empty) (fun _ _ => fail .type) w.storing hb w.onConflict
    w.onConflictLost hheld hvalid hnil 3
  constructor
  · have hanswer := hasked.1.of_ok (eq_ok_of_answers hquery)
    rw [if_pos houtdates] at hanswer
    exact ⟨_, eq_ok_of_answers hquery, hanswer.2.2⟩
  · exact ⟨_, eq_ok_of_answers hput, (hasked.2 (storing_newcomer 3).1 hfree hroom
      hseven).of_ok (eq_ok_of_answers hput)⟩

/-- **A query that is not answered.** At clock 51 nothing is sent: the placeholder is neither newer
nor older. -/
theorem missQuery_unanswered : (stocked 51).replica? 34 = some ⟨2, 51, .int 7⟩
    ∧ (stocked 51).stigmergy.onConflict = none ∧ (stocked 51).stigmergy.onConflictLost = none
    ∧ (stocked 51).value 0 = .nil
    ∧ ∃ m', dispatch (fun _ _ => fail .type) (.stigmergy .query 3 34 0 0) (stocked 51) = .ok () m'
      ∧ m'.outbox.toList = [] := by
  have run : answers (insertVersion 34 ⟨2, 4, 51⟩) (newcomer 1) = true
      ∧ (stocked 51).value 0 = .nil
      ∧ answersWith (dispatch (fun _ _ => fail .type) (.stigmergy .query 3 34 0 0))
        (stocked 51) (fun _ m' => m'.outbox.toList.isEmpty) = true := by
    rw [stocked, newcomer, sevenHeap_eq]
    decide +kernel
  obtain ⟨hstocked, hnil, hquery⟩ := run
  obtain ⟨w, hheld, -⟩ := worksOn_stocked 51 hstocked
  obtain ⟨⟨⟩, m', hok, hempty⟩ := exists_of_answersWith hquery
  exact ⟨hheld, w.onConflict, w.onConflictLost, hnil, m', hok, List.isEmpty_iff.1 hempty⟩

end Machine

end SwarmVm
