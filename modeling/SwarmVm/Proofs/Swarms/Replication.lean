import Mathlib.Data.List.Basic
import SwarmVm.Membership

/-!
# What a robot knows of another robot's swarms

A robot joins and leaves swarms and announces every change with the next value of its clock; now and
then it announces its whole mask with the clock it has. Another robot takes in some of these
announcements, in any order and any of them more than once, between whatever else it does.

The clock comes round, but as long as there are fewer than half a circle of changes, two
announcements are in the order in which their clocks lead the first one. So the entry that is kept
has the clock that leads most of those heard. A mask that was announced whole replaces what was
known even at an equal clock, and a change applies only after the clock of the entry; hence a mask
once heard whole is not spoilt by changes that it already contains.

## Main definitions

* `Membership.Action`, `Membership.states`, `Membership.announced` — what a robot goes through and
  what it announces
* `Membership.changes` — how often its mask changed
* `Membership.Receives` — another robot takes in some of what was announced

## Main results

* `Membership.exists_masks_of_mem_states` — the clock counts the changes
* `Membership.follows_announcements` — what the entry is after any part of the announcements
-/

namespace SwarmVm

namespace Clock

variable {a b start : UInt16}

/-- Within half a circle, a clock is not older than another one when it leads by as much. -/
theorem notOlder_iff (ha : (a - start).toNat < 32768) (hb : (b - start).toNat < 32768) :
    notOlder a b = true ↔ (b - start).toNat ≤ (a - start).toNat := by
  have := a.toNat_lt
  have := b.toNat_lt
  have := start.toNat_lt
  rw [notOlder, decide_eq_true_eq]
  simp only [UInt16.toNat_sub] at *
  omega

theorem eq_of_lead_eq (h : (a - start).toNat = (b - start).toNat) : a = b := by
  have hsum := congrArg (· + start) (UInt16.toNat_inj.1 h)
  simpa using hsum

theorem isAfter_iff (ha : (a - start).toNat < 32768) (hb : (b - start).toNat < 32768) :
    isAfter a b = true ↔ (b - start).toNat < (a - start).toNat := by
  have := a.toNat_lt
  have := b.toNat_lt
  have := start.toNat_lt
  rw [isAfter, Bool.and_eq_true, notOlder_iff ha hb, bne_iff_ne, Ne, ← UInt16.toNat_inj]
  simp only [UInt16.toNat_sub] at *
  omega

end Clock

namespace Membership

variable {robot : RobotId} {op : SwarmOp} {clock : UInt16} {swarms : UInt8}

/-! ### The robot that announces -/

/-- What a robot does with its membership. -/
inductive Action where
  /-- Join or leave a swarm. -/
  | change (swarm : UInt8) (member : Bool)
  /-- Announce the whole mask. -/
  | announce
  /-- Let a tick pass. -/
  | tick
  /-- Take in an announcement of another robot. -/
  | hear (op : SwarmOp) (other : RobotId) (clock : UInt16) (swarms : UInt8)

/-- What is announced at an action, and the membership after it. -/
def act (robot : RobotId) (m : Membership) : Action → Option (Message Value) × Membership
  | .change swarm member => m.setMember robot swarm member
  | .announce => (some (.swarm .list robot m.clock m.mask), m)
  | .tick => m.tick robot
  | .hear op other clock swarms => (none, (m.apply op other clock swarms).1)

/-- The action changes the mask. -/
def isChange (m : Membership) : Action → Bool
  | .change swarm member => m.isMember swarm != member
  | .announce | .tick | .hear .. => false

/-- The memberships that a robot goes through, the first and the last included. -/
def states (robot : RobotId) (m : Membership) : List Action → List Membership
  | [] => [m]
  | action :: actions => m :: states robot (act robot m action).2 actions

/-- What a robot announces. -/
def announced (robot : RobotId) (m : Membership) : List Action → List (Message Value)
  | [] => []
  | action :: actions =>
    (act robot m action).1.toList ++ announced robot (act robot m action).2 actions

/-- How often the mask changes. -/
def changes (robot : RobotId) (m : Membership) : List Action → Nat
  | [] => 0
  | action :: actions =>
    (m.isChange action).toNat + changes robot (act robot m action).2 actions

/-- The masks between two changes. -/
def masks (robot : RobotId) (m : Membership) : List Action → List UInt8
  | [] => [m.mask]
  | action :: actions =>
    (if m.isChange action then [m.mask] else []) ++ masks robot (act robot m action).2 actions

theorem length_masks (robot : RobotId) (m : Membership) (actions : List Action) :
    (masks robot m actions).length = changes robot m actions + 1 := by
  induction actions generalizing m with
  | nil => rfl
  | cons action actions ih =>
    rw [masks, changes, List.length_append, ih]
    cases m.isChange action
    · rw [Bool.toNat_false, if_neg (by simp), List.length_nil, Nat.zero_add, Nat.zero_add]
    · rw [Bool.toNat_true, if_pos rfl, List.length_singleton]
      omega

@[simp] theorem mask_apply (m : Membership) (op : SwarmOp) (other : RobotId) (clock : UInt16)
    (swarms : UInt8) : (m.apply op other clock swarms).1.mask = m.mask := by
  rw [apply]
  split
  · rfl
  · split <;> rfl

@[simp] theorem clock_apply (m : Membership) (op : SwarmOp) (other : RobotId) (clock : UInt16)
    (swarms : UInt8) : (m.apply op other clock swarms).1.clock = m.clock := by
  rw [apply]
  split
  · rfl
  · split <;> rfl

/-- Only a change advances the clock, and only a change gives another mask. -/
theorem clock_act (robot : RobotId) (m : Membership) (action : Action) :
    (m.isChange action = true → (act robot m action).2.clock = m.clock + 1)
      ∧ (m.isChange action = false → (act robot m action).2.clock = m.clock
        ∧ (act robot m action).2.mask = m.mask) := by
  cases action with
  | change swarm member =>
    rw [isChange, act, setMember]
    split
    · next h => simp [h]
    · next h => simp [h]
  | announce => exact ⟨by simp [isChange], fun _ => ⟨rfl, rfl⟩⟩
  | tick => exact ⟨by simp [isChange], fun _ => ⟨rfl, rfl⟩⟩
  | hear op other clock swarms =>
    exact ⟨by simp [isChange], fun _ => ⟨clock_apply .., mask_apply ..⟩⟩

theorem mem_states_self (robot : RobotId) (m : Membership) (actions : List Action) :
    m ∈ states robot m actions := by
  cases actions with
  | nil => exact List.mem_singleton_self m
  | cons => exact List.mem_cons_self

/-- The clock counts the changes, and the mask is the one after as many. -/
theorem exists_masks_of_mem_states {m t : Membership} {actions : List Action}
    (ht : t ∈ states robot m actions) :
    ∃ k, (masks robot m actions)[k]? = some t.mask ∧ t.clock = m.clock + UInt16.ofNat k := by
  induction actions generalizing m t with
  | nil =>
    obtain rfl := List.mem_singleton.1 ht
    exact ⟨0, rfl, (UInt16.add_zero _).symm⟩
  | cons action actions ih =>
    obtain ⟨hchange, hsame⟩ := clock_act robot m action
    rw [states, List.mem_cons] at ht
    rw [masks]
    cases hc : m.isChange action with
    | true =>
      rw [if_pos rfl, List.singleton_append]
      rcases ht with rfl | ht
      · exact ⟨0, rfl, (UInt16.add_zero _).symm⟩
      · obtain ⟨k, hk, hclock⟩ := ih ht
        refine ⟨k + 1, hk, ?_⟩
        rw [hclock, hchange hc, UInt16.ofNat_add, UInt16.add_assoc, UInt16.add_comm 1]
        rfl
    | false =>
      obtain ⟨hclock, hmask⟩ := hsame hc
      rw [if_neg (by simp), List.nil_append, ← hclock]
      rcases ht with rfl | ht
      · rw [← hmask, ← hclock]
        exact ih (mem_states_self robot (act robot t action).2 actions)
      · exact ih ht

/-- While the clock has not come half round, it tells how many changes there were. -/
theorem lead_of_mem_states {m t : Membership} {actions : List Action}
    (hfew : changes robot m actions < 32768) (ht : t ∈ states robot m actions) :
    (t.clock - m.clock).toNat < 32768
      ∧ (masks robot m actions)[(t.clock - m.clock).toNat]? = some t.mask := by
  obtain ⟨k, hk, hclock⟩ := exists_masks_of_mem_states ht
  have hlt : k < changes robot m actions + 1 := by
    rw [← length_masks]
    exact (List.getElem?_eq_some_iff.1 hk).1
  have hlead : (t.clock - m.clock).toNat = k := by
    rw [hclock, UInt16.add_comm, UInt16.add_sub_cancel, UInt16.toNat_ofNat_of_lt']
    show k < 65536
    omega
  rw [hlead]
  exact ⟨by omega, hk⟩

/-- What is announced carries the clock of the robot, and the whole mask is the robot's. -/
theorem exists_state_of_mem_announced {m : Membership} {actions : List Action} {other : RobotId}
    (h : .swarm op other clock swarms ∈ announced robot m actions) :
    ∃ t ∈ states robot m actions, t.clock = clock ∧ (op = .list → t.mask = swarms) := by
  induction actions generalizing m with
  | nil => cases h
  | cons action actions ih =>
    rw [announced, List.mem_append] at h
    rcases h with h | h
    · have hm := mem_states_self robot m (action :: actions)
      have hnext : (act robot m action).2 ∈ states robot m (action :: actions) :=
        List.mem_cons_of_mem _ (mem_states_self robot _ actions)
      rw [Option.mem_toList] at h
      cases action with
      | change swarm member =>
        refine ⟨_, hnext, ?_⟩
        rw [act, setMember] at h ⊢
        split at h
        · cases h
        · next hne =>
          rw [if_neg hne]
          cases member <;> cases h <;> exact ⟨rfl, nofun⟩
      | announce =>
        cases h
        exact ⟨m, hm, rfl, fun _ => rfl⟩
      | tick =>
        refine ⟨m, hm, ?_⟩
        rw [act, tick] at h
        dsimp only at h
        split at h
        · cases h
          exact ⟨rfl, fun _ => rfl⟩
        · cases h
      | hear => cases h
    · obtain ⟨t, ht, hclock⟩ := ih h
      exact ⟨t, List.mem_cons_of_mem _ ht, hclock⟩

/-! ### The robot that listens -/

/-- What is known of a robot. -/
def member? (m : Membership) (robot : RobotId) : Option MemberEntry :=
  m.entries.find? (·.robot == robot)

theorem robot_apply (e : MemberEntry) (op : SwarmOp) (clock : UInt16) (swarms : UInt8) :
    (MemberEntry.apply e op clock swarms).robot = e.robot := by
  rw [MemberEntry.apply]
  split <;> rfl

theorem find?_map_entries {f : MemberEntry → MemberEntry} (hf : ∀ e, (f e).robot = e.robot)
    (entries : List MemberEntry) : (entries.map f).find? (·.robot == robot)
      = (entries.find? (·.robot == robot)).map f := by
  have hkeeps : (fun e : MemberEntry => e.robot == robot) ∘ f = fun e => e.robot == robot := by
    funext e
    rw [Function.comp_apply, hf]
  rw [List.find?_map, hkeeps]

/-- An announcement of a listed robot, put into its entry. -/
theorem robot_refresh (other : RobotId) (op : SwarmOp) (clock : UInt16) (swarms : UInt8)
    (e : MemberEntry) :
    (if e.robot == other then MemberEntry.apply e op clock swarms else e).robot = e.robot := by
  split
  · exact robot_apply e op clock swarms
  · rfl

/-- An announcement of a listed robot reaches its entry. -/
theorem member?_apply {m : Membership} {e : MemberEntry} (h : m.member? robot = some e) :
    (m.apply op robot clock swarms).1.member? robot
      = some (MemberEntry.apply e op clock swarms) := by
  rw [member?] at h
  have he : e.robot = robot := by simpa using List.find?_some h
  rw [apply, h, member?, find?_map_entries (robot_refresh robot op clock swarms), h, Option.map_some,
    if_pos (by simpa using he)]

/-- The first announcement of a robot makes an entry for it. -/
theorem member?_apply_newcomer {m : Membership} (h : m.member? robot = none)
    (hroom : m.entries.length < m.capacity) :
    (m.apply op robot clock swarms).1.member? robot
      = some (MemberEntry.apply (newcomer robot clock) op clock swarms) := by
  rw [member?] at h
  rw [apply, h]
  dsimp only
  rw [if_neg (by omega), member?, List.find?_append, h, Option.none_or, List.find?_singleton,
    robot_apply, newcomer, beq_self_eq_true, if_pos rfl]

/-- Announcements of other robots leave the entry alone. -/
theorem member?_apply_of_ne {m : Membership} {other : RobotId} (hne : other ≠ robot) :
    (m.apply op other clock swarms).1.member? robot = m.member? robot := by
  rw [apply]
  split
  · rw [member?, member?, find?_map_entries (robot_refresh other op clock swarms)]
    cases h : m.entries.find? (·.robot == robot) with
    | none => rfl
    | some e =>
      have he : e.robot = robot := by simpa using List.find?_some h
      rw [Option.map_some, he, if_neg (by simpa using hne.symm)]
  · split
    · rfl
    · rw [member?, member?, List.find?_append, List.find?_singleton, robot_apply, newcomer,
        if_neg (by simpa using hne), Option.or_none]

theorem find?_filter_of_find? {α : Type} {p q : α → Bool} {as : List α}
    (h : ∀ a, as.find? p = some a → q a = true) : (as.filter q).find? p = as.find? p := by
  induction as with
  | nil => rfl
  | cons a as ih =>
    cases hp : p a with
    | true =>
      have hq : q a = true := h a (List.find?_cons_of_pos hp)
      rw [List.filter_cons_of_pos hq, List.find?_cons_of_pos hp, List.find?_cons_of_pos hp]
    | false =>
      have hnot : ¬ p a = true := by simp [hp]
      rw [List.find?_cons_of_neg hnot] at h ⊢
      cases hq : q a with
      | true => rw [List.filter_cons_of_pos hq, List.find?_cons_of_neg hnot, ih h]
      | false => rw [List.filter_cons_of_neg (by simp [hq]), ih h]

/-- An entry that does not die in a tick keeps what it says. -/
theorem member?_tick {m : Membership} (self : RobotId)
    (hlive : ∀ e, m.member? robot = some e → 1 < e.life) : (m.tick self).2.member? robot
      = (m.member? robot).map fun e => { e with life := e.life - 1 } := by
  have hage : (m.tick self).2.entries = age m.entries := rfl
  have holder : ∀ e : MemberEntry, ({ e with life := e.life - 1 } : MemberEntry).robot = e.robot :=
    fun _ => rfl
  rw [member?, hage, age, find?_filter_of_find?, find?_map_entries holder, member?]
  intro e he
  rw [find?_map_entries holder, Option.map_eq_some_iff] at he
  obtain ⟨e, he, rfl⟩ := he
  have := hlive e he
  simp only [decide_eq_true_eq]
  omega

/-- There is an entry for the robot, or room for one. -/
def HasRoom (m : Membership) (robot : RobotId) : Prop :=
  m.member? robot ≠ none ∨ m.entries.length < m.capacity

/-- A membership and the announcements of `robot` that it has taken in, the last one first: any of
`sent`, in any order and any number of times. In between anything else happens that leaves the
robot listed. -/
inductive Receives (robot : RobotId) (sent : List (Message Value)) (start : Membership) :
    List (Message Value) → Membership → Prop
  /-- Nothing has been heard. -/
  | start : Receives robot sent start [] start
  /-- One of the announcements comes. -/
  | deliver {heard m op clock swarms} (h : Receives robot sent start heard m)
      (hsent : .swarm op robot clock swarms ∈ sent) (hroom : m.HasRoom robot) :
      Receives robot sent start (.swarm op robot clock swarms :: heard)
        (m.apply op robot clock swarms).1
  /-- Another robot is heard. -/
  | other {heard m other} (op clock swarms) (h : Receives robot sent start heard m)
      (hne : other ≠ robot) :
      Receives robot sent start heard (m.apply op other clock swarms).1
  /-- The robot that listens joins or leaves a swarm itself. -/
  | change {heard m} (self swarm member) (h : Receives robot sent start heard m) :
      Receives robot sent start heard (m.setMember self swarm member).2
  /-- A tick passes, in which the entry does not die. -/
  | tick {heard m} (self) (h : Receives robot sent start heard m)
      (hlive : ∀ e, m.member? robot = some e → 1 < e.life) :
      Receives robot sent start heard (m.tick self).2

/-! ### What it knows -/

/-- An entry that says what was heard, with the clocks counted from `start`: its clock is the one
that leads most, and if the whole mask was heard with that clock, its mask is the one the robot had
then. -/
structure Follows (robot : RobotId) (start : UInt16) (states : List Membership)
    (heard : List (Message Value)) (e : MemberEntry) : Prop where
  /-- The clock was heard. -/
  heard_clock : ∃ op swarms, .swarm op robot e.clock swarms ∈ heard
  /-- The robot had that clock. -/
  had_clock : ∃ t ∈ states, t.clock = e.clock
  /-- No clock heard is ahead of it. -/
  latest : ∀ op clock swarms, .swarm op robot clock swarms ∈ heard →
    (clock - start).toNat ≤ (e.clock - start).toNat
  /-- A mask heard whole with that clock is the robot's. -/
  mask : ∀ swarms, .swarm .list robot e.clock swarms ∈ heard →
    ∀ t ∈ states, t.clock = e.clock → e.swarms = t.mask

section Entry

variable {e : MemberEntry} {start : UInt16}

/-- An announcement that the clock of the entry is ahead of is stale. -/
theorem apply_of_older (op : SwarmOp) (swarms : UInt8) (he : (e.clock - start).toNat < 32768)
    (hlt : (clock - start).toNat < (e.clock - start).toNat) :
    (MemberEntry.apply e op clock swarms).clock = e.clock
      ∧ (MemberEntry.apply e op clock swarms).swarms = e.swarms := by
  have hold : ¬ Clock.notOlder clock e.clock = true := by
    rw [Clock.notOlder_iff (Nat.lt_trans hlt he) he]
    omega
  have hafter : ¬ Clock.isAfter clock e.clock = true := by
    rw [Clock.isAfter_iff (Nat.lt_trans hlt he) he]
    omega
  cases op <;> simp [MemberEntry.apply, updated?, hold, hafter]

/-- At the clock of the entry only the whole mask is taken. -/
theorem apply_of_same (e : MemberEntry) (op : SwarmOp) (swarms : UInt8) :
    (MemberEntry.apply e op e.clock swarms).clock = e.clock
      ∧ (MemberEntry.apply e op e.clock swarms).swarms
        = if op = .list then swarms else e.swarms := by
  have hsame : Clock.notOlder e.clock e.clock = true := by simp [Clock.notOlder]
  have hafter : ¬ Clock.isAfter e.clock e.clock = true := by simp [Clock.isAfter]
  cases op <;> simp [MemberEntry.apply, updated?, hsame, hafter]

/-- A clock after that of the entry is taken, and the whole mask with it. -/
theorem apply_of_isAfter (op : SwarmOp) (swarms : UInt8)
    (hafter : Clock.isAfter clock e.clock = true) :
    (MemberEntry.apply e op clock swarms).clock = clock
      ∧ (op = .list → (MemberEntry.apply e op clock swarms).swarms = swarms) := by
  have hnew : Clock.notOlder clock e.clock = true := (Bool.and_eq_true_iff.1 hafter).2
  cases op <;> simp [MemberEntry.apply, updated?, hnew, hafter]

theorem isAfter_newcomer (robot : RobotId) (clock : UInt16) :
    Clock.isAfter clock (newcomer robot clock).clock = true := by
  have := clock.toNat_lt
  rw [newcomer, Clock.isAfter, Clock.notOlder, Bool.and_eq_true, bne_iff_ne, Ne,
    ← UInt16.toNat_inj, decide_eq_true_eq]
  simp only [UInt16.toNat_sub, UInt16.toNat_one]
  omega

end Entry

section Follows

variable {start : UInt16} {states : List Membership} {heard : List (Message Value)}
  {e e' : MemberEntry} {t : Membership}

/-- The first announcement that is heard. -/
theorem follows_newcomer
    (hmask : ∀ t ∈ states, ∀ t' ∈ states, t.clock = t'.clock → t.mask = t'.mask)
    (ht : t ∈ states) (hlist : op = .list → t.mask = swarms) :
    Follows robot start states [.swarm op robot t.clock swarms]
      (MemberEntry.apply (newcomer robot t.clock) op t.clock swarms) := by
  obtain ⟨hc, hs⟩ := apply_of_isAfter op swarms (isAfter_newcomer robot t.clock)
  generalize MemberEntry.apply (newcomer robot t.clock) op t.clock swarms = e at hc hs
  refine ⟨⟨op, swarms, hc ▸ List.mem_singleton_self _⟩, ⟨t, ht, hc.symm⟩, ?_, ?_⟩
  · intro op' clock' swarms' hmem
    cases List.mem_singleton.1 hmem
    exact Nat.le_of_eq (by rw [hc])
  · intro swarms' hmem t' ht' hclock'
    rw [hc] at hmem hclock'
    cases List.mem_singleton.1 hmem
    rw [hs rfl, ← hlist rfl]
    exact hmask t ht t' ht' hclock'.symm

/-- An announcement that changes nothing, as it is not ahead and no whole mask of the same clock. -/
theorem Follows.keep (h : Follows robot start states heard e) (hc : e'.clock = e.clock)
    (hs : e'.swarms = e.swarms) (hle : (clock - start).toNat ≤ (e.clock - start).toNat)
    (hno : op = .list → clock ≠ e.clock) :
    Follows robot start states (.swarm op robot clock swarms :: heard) e' := by
  obtain ⟨op₀, swarms₀, hheard⟩ := h.heard_clock
  refine ⟨⟨op₀, swarms₀, hc ▸ List.mem_cons_of_mem _ hheard⟩, hc ▸ h.had_clock, ?_, ?_⟩
  · intro op' clock' swarms' hmem
    rw [hc]
    rcases List.mem_cons.1 hmem with heq | hmem
    · cases heq
      exact hle
    · exact h.latest op' clock' swarms' hmem
  · intro swarms' hmem
    rw [hc] at hmem ⊢
    rw [hs]
    rcases List.mem_cons.1 hmem with heq | hmem
    · cases heq
      exact absurd rfl (hno rfl)
    · exact h.mask swarms' hmem

/-- An announcement that is taken: it is ahead of the entry, or it is the whole mask and the entry
is not ahead of it. -/
theorem Follows.take
    (hmask : ∀ t ∈ states, ∀ t' ∈ states, t.clock = t'.clock → t.mask = t'.mask)
    (h : Follows robot start states heard e) (ht : t ∈ states)
    (hlist : op = .list → t.mask = swarms) (hc : e'.clock = t.clock)
    (hs : op = .list → e'.swarms = swarms)
    (hle : (e.clock - start).toNat ≤ (t.clock - start).toNat)
    (hahead : op ≠ .list → t.clock ≠ e.clock) :
    Follows robot start states (.swarm op robot t.clock swarms :: heard) e' := by
  refine ⟨⟨op, swarms, hc ▸ List.mem_cons_self⟩, ⟨t, ht, hc.symm⟩, ?_, ?_⟩
  · intro op' clock' swarms' hmem
    rw [hc]
    rcases List.mem_cons.1 hmem with heq | hmem
    · cases heq
      exact Nat.le_refl _
    · exact Nat.le_trans (h.latest op' clock' swarms' hmem) hle
  · intro swarms' hmem t' ht' hclock'
    rw [hc] at hmem hclock'
    by_cases hop : op = .list
    · rw [hs hop, ← hlist hop]
      exact hmask t ht t' ht' hclock'.symm
    · -- The whole mask would have been heard before, so the entry would not be behind.
      rcases List.mem_cons.1 hmem with heq | hmem
      · cases heq
        exact absurd rfl hop
      · have hback := h.latest .list t.clock swarms' hmem
        exact absurd (Clock.eq_of_lead_eq (Nat.le_antisymm hback hle)) (hahead hop)

/-- Another announcement is heard. -/
theorem Follows.hear (hlead : ∀ t ∈ states, (t.clock - start).toNat < 32768)
    (hmask : ∀ t ∈ states, ∀ t' ∈ states, t.clock = t'.clock → t.mask = t'.mask)
    (h : Follows robot start states heard e) (ht : t ∈ states)
    (hlist : op = .list → t.mask = swarms) :
    Follows robot start states (.swarm op robot t.clock swarms :: heard)
      (MemberEntry.apply e op t.clock swarms) := by
  have hold : (e.clock - start).toNat < 32768 := by
    obtain ⟨t', ht', hclock'⟩ := h.had_clock
    exact hclock' ▸ hlead t' ht'
  rcases Nat.lt_trichotomy (t.clock - start).toNat (e.clock - start).toNat with hlt | heq | hgt
  · obtain ⟨hc, hs⟩ := apply_of_older op swarms hold hlt
    refine h.keep hc hs (Nat.le_of_lt hlt) fun _ hclock => ?_
    rw [hclock] at hlt
    exact Nat.lt_irrefl _ hlt
  · have hclock : t.clock = e.clock := Clock.eq_of_lead_eq heq
    obtain ⟨hc, hs⟩ := apply_of_same e op swarms
    rw [← hclock] at hc hs
    by_cases hop : op = .list
    · rw [if_pos hop] at hs
      exact h.take hmask ht hlist hc (fun _ => hs) (Nat.le_of_eq heq.symm) fun hno => absurd hop hno
    · rw [if_neg hop] at hs
      exact h.keep (hc.trans hclock) hs (Nat.le_of_eq heq) fun hyes => absurd hyes hop
  · obtain ⟨hc, hs⟩ := apply_of_isAfter op swarms
      ((Clock.isAfter_iff (hlead t ht) hold).2 hgt)
    refine h.take hmask ht hlist hc hs (Nat.le_of_lt hgt) fun _ hclock => ?_
    rw [hclock] at hgt
    exact Nat.lt_irrefl _ hgt

end Follows

/-- **What is known of a robot follows its announcements.** A robot changes its mask fewer than
half a circle of times; another one, which did not know it, takes in any part of what it announces.
Then it knows nothing exactly when it has heard nothing, and otherwise the clock that leads most of
those heard, together with the mask that the robot had then if the whole mask was heard with it. -/
theorem follows_announcements {m start m' : Membership} {actions : List Action}
    {heard : List (Message Value)} (hfew : changes robot m actions < 32768)
    (hnew : start.member? robot = none)
    (h : Receives robot (announced robot m actions) start heard m') :
    heard = [] ∧ m'.member? robot = none ∨ ∃ e, m'.member? robot = some e
      ∧ Follows robot m.clock (states robot m actions) heard e := by
  have hlead : ∀ t ∈ states robot m actions, (t.clock - m.clock).toNat < 32768 := fun t ht =>
    (lead_of_mem_states hfew ht).1
  have hmask : ∀ t ∈ states robot m actions, ∀ t' ∈ states robot m actions,
      t.clock = t'.clock → t.mask = t'.mask := by
    intro t ht t' ht' hclock
    have hfirst := (lead_of_mem_states hfew ht).2
    rw [hclock, (lead_of_mem_states hfew ht').2] at hfirst
    exact (Option.some.inj hfirst).symm
  induction h with
  | start => exact .inl ⟨rfl, hnew⟩
  | deliver h hsent hroom ih =>
    obtain ⟨t, ht, rfl, hlist⟩ := exists_state_of_mem_announced hsent
    rcases ih with ⟨rfl, hnone⟩ | ⟨e, he, hfollows⟩
    · have hroom' := hroom.resolve_left fun hlisted => hlisted hnone
      exact .inr ⟨_, member?_apply_newcomer hnone hroom', follows_newcomer hmask ht hlist⟩
    · exact .inr ⟨_, member?_apply he, hfollows.hear hlead hmask ht hlist⟩
  | other op clock swarms h hne ih => rwa [member?_apply_of_ne hne]
  | change self swarm member h ih =>
    have hsame : ∀ m : Membership, (m.setMember self swarm member).2.entries = m.entries := by
      intro m
      rw [setMember]
      split <;> rfl
    rwa [member?, hsame]
  | tick self h hlive ih =>
    rw [member?_tick self hlive]
    rcases ih with ⟨rfl, hnone⟩ | ⟨e, he, hfollows⟩
    · exact .inl ⟨rfl, by rw [hnone]; rfl⟩
    · refine .inr ⟨_, by rw [he]; rfl, ?_⟩
      exact ⟨hfollows.heard_clock, hfollows.had_clock, hfollows.latest, hfollows.mask⟩

/-- A robot whose clock is about to come round joins two swarms, announces its mask and leaves one
of them. -/
def restless : List Action :=
  [.announce, .change 0 true, .change 3 true, .announce, .change 0 false]

/-- Of all that, the mask after two changes is heard first, and then only what is older. -/
theorem follows_late :
    let m : Membership := { clock := 65535, capacity := 4 }
    let heard : List (Message Value) :=
      [.swarm .list 7 65535 0, .swarm .join 7 0 1, .swarm .join 7 1 8, .swarm .list 7 1 9]
    let m' : Membership := { capacity := 1, entries := [⟨7, 9, 1, 50⟩] }
    changes 7 m restless < 32768 ∧ Receives 7 (announced 7 m restless) { capacity := 1 } heard m'
      ∧ (heard = [] ∧ m'.member? 7 = none ∨ ∃ e, m'.member? 7 = some e
        ∧ Follows 7 m.clock (states 7 m restless) heard e) := by
  intro m heard m'
  have hfew : changes 7 m restless < 32768 := by decide
  have hlisted : m'.HasRoom 7 := .inl (by decide)
  have hfirst : Receives 7 (announced 7 m restless) { capacity := 1 } [.swarm .list 7 1 9] m' :=
    .deliver .start (by decide) (.inr (by decide))
  have hagain : Receives 7 (announced 7 m restless) { capacity := 1 }
      [.swarm .join 7 1 8, .swarm .list 7 1 9] m' := .deliver hfirst (by decide) hlisted
  have hstale : Receives 7 (announced 7 m restless) { capacity := 1 }
      [.swarm .join 7 0 1, .swarm .join 7 1 8, .swarm .list 7 1 9] m' :=
    .deliver hagain (by decide) hlisted
  have hrun : Receives 7 (announced 7 m restless) { capacity := 1 } heard m' :=
    .deliver hstale (by decide) hlisted
  exact ⟨hfew, hrun, follows_announcements hfew rfl hrun⟩

end Membership

end SwarmVm
