import Mathlib.Data.List.Nodup
import SwarmVm.Proofs.Swarms.Replication

/-!
# How long a robot is listed

Every announcement of a robot that is listed, or for which there is room, gives its entry a full
life, whether or not its mask is taken. Every tick takes one from the life of every entry, and an
entry without life is dropped. So an entry with `n` ticks to live is there after fewer than `n`
ticks, with what it said, and is not there any more after `n`, whatever is heard of other robots in
between (`Membership.member?_after`). That an expired robot is gone rests on the list having one
entry for each robot only: a second entry would take its place.

## Main definitions

* `Membership.after` — the membership after some actions
* `Membership.Listing` — one entry for each robot, and not too many
* `Membership.tickCount` — how many of the actions are ticks

## Main results

* `Membership.member?_after` — an entry as it gets older
* `Membership.listed_for_fifty_ticks` — robots come, stay for fifty ticks and go
-/

namespace SwarmVm

namespace Membership

variable {m : Membership} {self robot other : RobotId} {op : SwarmOp} {clock : UInt16}
  {swarms : UInt8} {action : Action} {actions : List Action} {e : MemberEntry}

/-- The membership after some actions. -/
def after (self : RobotId) (m : Membership) (actions : List Action) : Membership :=
  actions.foldl (fun m action => (act self m action).2) m

/-- The action takes in an announcement of the robot. -/
def Action.hears (robot : RobotId) : Action → Bool
  | .hear _ other _ _ => other == robot
  | .change .. | .announce | .tick => false

/-- The action is a tick. -/
def Action.isTick : Action → Bool
  | .tick => true
  | .change .. | .announce | .hear .. => false

/-- How many of the actions are ticks. -/
def tickCount (actions : List Action) : Nat := actions.countP Action.isTick

/-! ### The list -/

/-- The robots that are listed. -/
def robots (m : Membership) : List RobotId := m.entries.map (·.robot)

/-- One entry for each robot, and not too many of them. -/
structure Listing (m : Membership) : Prop where
  /-- No robot is listed twice. -/
  nodup : m.robots.Nodup
  /-- The list is not too long. -/
  length_le : m.robots.length ≤ m.capacity
  /-- No entry is to be dropped. -/
  alive : ∀ e ∈ m.entries, 0 < e.life

theorem length_robots (m : Membership) : m.robots.length = m.entries.length := List.length_map _

theorem member?_eq_none_iff : m.member? robot = none ↔ robot ∉ m.robots := by
  simp [member?, robots]

theorem robot_of_member? (h : m.member? robot = some e) : e ∈ m.entries ∧ e.robot = robot :=
  ⟨List.mem_of_find?_eq_some h, by simpa using List.find?_some h⟩

/-- The entry of a robot is the only one. -/
theorem Listing.member?_of_mem (hm : m.Listing) (he : e ∈ m.entries) :
    m.member? e.robot = some e := by
  cases hf : m.member? e.robot with
  | none => exact absurd (List.mem_map_of_mem he) (member?_eq_none_iff.1 hf)
  | some e' =>
    obtain ⟨he', hr⟩ := robot_of_member? hf
    rw [List.inj_on_of_nodup_map hm.nodup he' he hr]

theorem listing_new (capacity : Nat) : Listing { capacity } :=
  ⟨List.nodup_nil, Nat.zero_le _, nofun⟩

/-! ### What is heard -/

theorem life_apply (e : MemberEntry) (op : SwarmOp) (clock : UInt16) (swarms : UInt8) :
    (MemberEntry.apply e op clock swarms).life = lifetime := by
  rw [MemberEntry.apply]
  split <;> rfl

theorem capacity_apply : (m.apply op robot clock swarms).1.capacity = m.capacity := by
  rw [apply]
  split
  · rfl
  · split <;> rfl

/-- A robot that is listed is refreshed in its place. -/
theorem entries_apply_of_listed (h : m.member? robot ≠ none) (op : SwarmOp) (clock : UInt16)
    (swarms : UInt8) : (m.apply op robot clock swarms).1.entries = m.entries.map fun e =>
      if e.robot == robot then MemberEntry.apply e op clock swarms else e := by
  obtain ⟨e, he⟩ := Option.ne_none_iff_exists'.1 h
  rw [member?] at he
  rw [apply, he]

/-- A robot that is not listed comes last. -/
theorem entries_apply_newcomer (h : m.member? robot = none)
    (hroom : m.entries.length < m.capacity) (op : SwarmOp) (clock : UInt16) (swarms : UInt8) :
    (m.apply op robot clock swarms).1.entries
      = m.entries ++ [MemberEntry.apply (newcomer robot clock) op clock swarms] := by
  rw [member?] at h
  rw [apply, h]
  dsimp only
  rw [if_neg (Nat.not_le.2 hroom)]

/-- A robot that is not listed is not heard when the list is full. -/
theorem apply_of_full (h : ¬ m.HasRoom robot) : (m.apply op robot clock swarms).1 = m := by
  rw [HasRoom, not_or, not_not, member?] at h
  rw [apply, h.1]
  dsimp only
  rw [if_pos (Nat.not_lt.1 h.2)]

/-- What is heard of a robot keeps the list in order. -/
theorem Listing.apply (hm : m.Listing) (op : SwarmOp) (robot : RobotId) (clock : UInt16)
    (swarms : UInt8) : (m.apply op robot clock swarms).1.Listing := by
  by_cases hroom : m.HasRoom robot
  · by_cases hlisted : m.member? robot = none
    · have hlt := hroom.resolve_left fun h => h hlisted
      have hentries := entries_apply_newcomer hlisted hlt op clock swarms
      have hrobots : (m.apply op robot clock swarms).1.robots = m.robots ++ [robot] := by
        rw [robots, hentries, List.map_append, List.map_singleton, robot_apply, newcomer, ← robots]
      refine ⟨?_, ?_, fun e he => ?_⟩
      · rw [hrobots, List.nodup_append_comm, List.singleton_append, List.nodup_cons]
        exact ⟨member?_eq_none_iff.1 hlisted, hm.nodup⟩
      · rw [hrobots, capacity_apply, List.length_append, length_robots]
        exact hlt
      · rw [hentries, List.mem_append, List.mem_singleton] at he
        rcases he with he | rfl
        · exact hm.alive e he
        · rw [life_apply]
          decide
    · have hentries := entries_apply_of_listed hlisted op clock swarms
      have hrobots : (m.apply op robot clock swarms).1.robots = m.robots := by
        rw [robots, hentries, List.map_map]
        exact List.map_congr_left fun e _ => robot_refresh robot op clock swarms e
      refine ⟨hrobots ▸ hm.nodup, ?_, fun e he => ?_⟩
      · rw [hrobots, capacity_apply]
        exact hm.length_le
      rw [hentries] at he
      obtain ⟨e₀, he₀, rfl⟩ := List.mem_map.1 he
      split
      · rw [life_apply]
        decide
      · exact hm.alive e₀ he₀
  · rw [apply_of_full hroom]
    exact hm

/-- Its entry has a full life then. -/
theorem exists_member?_apply (h : m.HasRoom robot) (op : SwarmOp) (clock : UInt16)
    (swarms : UInt8) : ∃ e, (m.apply op robot clock swarms).1.member? robot = some e
      ∧ e.life = lifetime := by
  cases hf : m.member? robot with
  | none =>
    exact ⟨_, member?_apply_newcomer hf (h.resolve_left fun hn => hn hf), life_apply ..⟩
  | some e => exact ⟨_, member?_apply hf, life_apply ..⟩

/-! ### Ticks -/

/-- An entry some ticks later: with less life, or dropped. -/
def MemberEntry.aged (ticks : Nat) (e : MemberEntry) : Option MemberEntry :=
  if ticks < e.life then some { e with life := e.life - ticks } else none

theorem aged_bind_aged (n k : Nat) (e : MemberEntry) :
    (MemberEntry.aged n e).bind (MemberEntry.aged k) = MemberEntry.aged (n + k) e := by
  rw [MemberEntry.aged, MemberEntry.aged]
  split
  · rw [Option.bind_some, MemberEntry.aged]
    dsimp only
    by_cases hk : n + k < e.life
    · rw [if_pos hk, if_pos (by omega), Nat.sub_sub]
    · rw [if_neg hk, if_neg (by omega)]
  · rw [if_neg (by omega), Option.bind_none]

/-- A tick takes robots off the list, and leaves the others in order. -/
theorem robots_tick_sublist (m : Membership) (self : RobotId) :
    (m.tick self).2.robots.Sublist m.robots := by
  have hsub := (List.filter_sublist (p := fun e : MemberEntry => 0 < e.life)
    (l := m.entries.map fun e => { e with life := e.life - 1 })).map (·.robot)
  rwa [List.map_map] at hsub

theorem Listing.tick (hm : m.Listing) (self : RobotId) : (m.tick self).2.Listing := by
  have hsub := robots_tick_sublist m self
  exact ⟨hm.nodup.sublist hsub, Nat.le_trans hsub.length_le hm.length_le,
    fun e he => of_decide_eq_true (List.mem_filter.1 he).2⟩

/-- In a tick an entry gets older or is dropped, and none takes its place. -/
theorem Listing.member?_tick (hm : m.Listing) (self robot : RobotId) :
    (m.tick self).2.member? robot = (m.member? robot).bind (MemberEntry.aged 1) := by
  cases hf : m.member? robot with
  | none =>
    have habsent := member?_eq_none_iff.1 hf
    exact member?_eq_none_iff.2 fun hr => habsent ((robots_tick_sublist m self).subset hr)
  | some e =>
    rw [Option.bind_some, MemberEntry.aged]
    by_cases hlive : 1 < e.life
    · have hsame : ∀ e', m.member? robot = some e' → 1 < e'.life := by
        intro e' he'
        rw [hf] at he'
        rwa [← Option.some.inj he']
      rw [Membership.member?_tick self hsame, hf, if_pos hlive, Option.map_some]
    · rw [if_neg hlive]
      refine member?_eq_none_iff.2 fun hr => ?_
      obtain ⟨e', he', rfl⟩ := List.mem_map.1 hr
      obtain ⟨he', hlife⟩ := List.mem_filter.1 he'
      obtain ⟨e₀, he₀, rfl⟩ := List.mem_map.1 he'
      -- the list has no other entry of the robot than the one that is dropped
      obtain rfl : e₀ = e := Option.some.inj ((hm.member?_of_mem he₀).symm.trans hf)
      have hpos : 0 < e₀.life - 1 := of_decide_eq_true hlife
      omega

/-! ### Runs -/

theorem setMember_list (m : Membership) (self : RobotId) (swarm : UInt8) (member : Bool) :
    (m.setMember self swarm member).2.entries = m.entries
      ∧ (m.setMember self swarm member).2.capacity = m.capacity := by
  rw [setMember]
  split <;> exact ⟨rfl, rfl⟩

theorem Listing.act (hm : m.Listing) (self : RobotId) (action : Action) :
    (act self m action).2.Listing := by
  cases action with
  | change swarm member =>
    obtain ⟨hentries, hcapacity⟩ := setMember_list m self swarm member
    refine ⟨?_, ?_, ?_⟩
    · rw [robots, Membership.act, hentries]
      exact hm.nodup
    · rw [robots, Membership.act, hentries, hcapacity]
      exact hm.length_le
    · rw [Membership.act, hentries]
      exact hm.alive
  | announce => exact hm
  | tick => exact hm.tick self
  | hear op other clock swarms => exact hm.apply op other clock swarms

theorem Listing.after (hm : m.Listing) (self : RobotId) (actions : List Action) :
    (after self m actions).Listing := by
  induction actions generalizing m with
  | nil => exact hm
  | cons action actions ih => exact ih (hm.act self action)

theorem capacity_act (self : RobotId) (m : Membership) (action : Action) :
    (act self m action).2.capacity = m.capacity := by
  cases action with
  | change swarm member => exact (setMember_list m self swarm member).2
  | announce => rfl
  | tick => rfl
  | hear op other clock swarms => exact capacity_apply

theorem capacity_after (self : RobotId) (m : Membership) (actions : List Action) :
    (after self m actions).capacity = m.capacity := by
  induction actions generalizing m with
  | nil => rfl
  | cons action actions ih => exact (ih _).trans (capacity_act self m action)

/-- As long as nothing is heard of a robot, its entry gets older in ticks and is left alone
otherwise. -/
theorem Listing.member?_act (hm : m.Listing) (self : RobotId) (hno : action.hears robot = false) :
    (Membership.act self m action).2.member? robot
      = (m.member? robot).bind (MemberEntry.aged action.isTick.toNat) := by
  have same : (m.member? robot).bind (MemberEntry.aged 0) = m.member? robot := by
    cases hf : m.member? robot with
    | none => rfl
    | some e => exact if_pos (hm.alive e (robot_of_member? hf).1)
  cases action with
  | change swarm member =>
    rw [Membership.act, member?, (setMember_list m self swarm member).1]
    exact same.symm
  | announce => exact same.symm
  | tick => exact hm.member?_tick self robot
  | hear op other clock swarms =>
    exact (member?_apply_of_ne (by simpa [Action.hears] using hno)).trans same.symm

theorem Listing.member?_after (hm : m.Listing) (self : RobotId)
    (hno : ∀ action ∈ actions, action.hears robot = false) :
    (Membership.after self m actions).member? robot
      = (m.member? robot).bind (MemberEntry.aged (tickCount actions)) := by
  induction actions generalizing m with
  | nil =>
    have hnothing : Membership.after self m [] = (Membership.act self m .announce).2 := rfl
    rw [hnothing, hm.member?_act self rfl]
    rfl
  | cons action actions ih =>
    rw [List.forall_mem_cons] at hno
    have hcount : tickCount (action :: actions) = action.isTick.toNat + tickCount actions := by
      rw [tickCount, List.countP_cons, Nat.add_comm]
      cases action.isTick <;> rfl
    have hrun : Membership.after self m (action :: actions)
        = Membership.after self (Membership.act self m action).2 actions := rfl
    rw [hrun, ih (hm.act self action) hno.2, hm.member?_act self hno.1, Option.bind_assoc, hcount]
    simp only [aged_bind_aged]

/-- What is heard of a robot for which there is room keeps it listed for fifty ticks. -/
theorem Listing.mem_robots_after (hm : m.Listing) (self : RobotId) (hroom : m.HasRoom robot)
    (op : SwarmOp) (clock : UInt16) (swarms : UInt8)
    (hno : ∀ action ∈ actions, action.hears robot = false) :
    robot ∈ (Membership.after self (m.apply op robot clock swarms).1 actions).robots
      ↔ tickCount actions < 50 := by
  obtain ⟨e, he, hlife⟩ := exists_member?_apply hroom op clock swarms
  have hlater := (hm.apply op robot clock swarms).member?_after self hno
  rw [he, Option.bind_some, MemberEntry.aged, hlife] at hlater
  rw [← not_iff_not, ← member?_eq_none_iff, hlater, ite_eq_right_iff]
  simp [lifetime]

theorem hasRoom_iff : m.HasRoom robot ↔ robot ∈ m.robots ∨ m.robots.length < m.capacity := by
  rw [HasRoom, Ne, member?_eq_none_iff, not_not, length_robots]

/-- **Robots come, stay for fifty ticks and go.** Whatever has been heard, and however often it has
ticked, the list has no robot twice and is not longer than it may be. What is heard of a robot that
is listed or for which there is room, be it stale or not, keeps the robot listed for as long as
fewer than fifty ticks go by without another announcement of it, and no longer. What is heard of a
robot for which there is no room changes nothing. What is heard of one robot leaves the others as
they are, and a tick leaves every robot that stays its mask and its clock. -/
theorem listed_for_fifty_ticks (self : RobotId) (capacity : Nat) (history : List Action) :
    let m := after self { capacity } history
    m.robots.Nodup ∧ m.robots.length ≤ capacity
    ∧ (∀ op robot clock swarms, robot ∈ m.robots ∨ m.robots.length < capacity →
      ∀ later : List Action, (∀ action ∈ later, action.hears robot = false) →
        (robot ∈ (after self (m.apply op robot clock swarms).1 later).robots
          ↔ tickCount later < 50))
    ∧ (∀ op robot clock swarms, robot ∉ m.robots → m.robots.length = capacity →
      (m.apply op robot clock swarms).1 = m)
    ∧ (∀ op other clock swarms robot, other ≠ robot →
      (m.apply op other clock swarms).1.member? robot = m.member? robot)
    ∧ ∀ robot, ∀ e ∈ (m.tick self).2.member? robot,
      ∃ e₀ ∈ m.member? robot, e.swarms = e₀.swarms ∧ e.clock = e₀.clock := by
  intro m
  have hm : m.Listing := (listing_new capacity).after self history
  have hcapacity : m.capacity = capacity := capacity_after self { capacity } history
  refine ⟨hm.nodup, hcapacity ▸ hm.length_le, fun op robot clock swarms hroom later hno => ?_,
    fun op robot clock swarms habsent hfull => ?_, fun op other clock swarms robot hne =>
      member?_apply_of_ne hne, fun robot e he => ?_⟩
  · exact hm.mem_robots_after self (hasRoom_iff.2 (hcapacity.symm ▸ hroom)) op clock swarms hno
  · refine apply_of_full fun hroom => ?_
    rcases hasRoom_iff.1 hroom with hlisted | hlt
    · exact habsent hlisted
    · omega
  · rw [hm.member?_tick self robot, Option.mem_def, Option.bind_eq_some_iff] at he
    obtain ⟨e₀, he₀, haged⟩ := he
    rw [MemberEntry.aged] at haged
    split at haged
    · obtain rfl := Option.some.inj haged
      exact ⟨e₀, he₀, rfl, rfl⟩
    · cases haged

/-- A full list of one robot: a stale change of its mask gives it another fifty ticks, in which a
newcomer is not heard, and then there is room. -/
theorem listed_for_fifty_ticks_full :
    let history : List Action := [.hear .list 2 5 1] ++ List.replicate 49 .tick
    let m := after 1 { capacity := 1 } history
    let m' := (m.apply .leave 2 4 1).1
    m'.robotSwarms? 2 = some 1 ∧ m.robots = [2] ∧ (m.apply .list 3 1 1).1 = m
      ∧ 2 ∈ (after 1 m' ([.hear .list 3 1 1] ++ List.replicate 49 .tick)).robots
      ∧ 2 ∉ (after 1 m' (List.replicate 50 .tick)).robots := by
  intro history m m'
  obtain ⟨-, -, hlife, hfull, -⟩ := listed_for_fifty_ticks 1 1 history
  have hlisted : m.robots = [2] := by decide
  have hticks : ∀ n, ∀ action ∈ List.replicate n Action.tick, action.hears 2 = false :=
    fun n action ha => List.eq_of_mem_replicate ha ▸ rfl
  have hlater := hlife .leave 2 4 1 (.inl (hlisted ▸ List.mem_singleton_self 2))
  refine ⟨by decide, hlisted, hfull .list 3 1 1 (by rw [hlisted]; decide) (by rw [hlisted]; rfl),
    (hlater _ fun action ha => ?_).2 (by decide), fun h => ?_⟩
  · rcases List.mem_append.1 ha with ha | ha
    · rw [List.mem_singleton.1 ha]
      rfl
    · exact hticks 49 action ha
  · exact absurd ((hlater _ (hticks 50)).1 h) (by decide)

end Membership

end SwarmVm
