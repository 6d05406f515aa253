import Mathlib.Data.List.FinRange
import Mathlib.Data.List.Induction
import SwarmVm.Simulation

/-!
# What robots hear

The robots of a swarm are threads that share the radio. In every tick a robot waits for the others,
takes what is in its tray, waits for the others again, and only then thinks and sends; a robot that
failed neither thinks nor sends, but waits as often as the others do. Between the waits the threads
run freely: one robot may have begun the next tick while another has not sent its payloads yet.

The two waits keep the ticks apart. Whoever sends has returned from the second wait, so everybody
has taken what was sent in the tick before, and nobody takes again before the sender comes to the
first wait of the next tick. Therefore a tray only ever holds payloads of the tick after which it
was taken last, and when it is taken everybody has sent them.

The waits are those of a correct barrier: a robot returns from a wait when everybody has entered it,
and not before. Taking a tray and putting payloads in the trays of others happen under a lock, so
each of them is one step. Nothing is assumed about how robots think.

## Main definitions

* `Mission` — what the robots do with what they hear
* `Fleet`, `Fleet.step` — the robots with their radio, and what one of them does next
* `Fleet.Paced` — how the waits keep the robots together
* `Fleet.Carried` — what is in the trays, and what was taken out of them
* `Robot.mission` — what robots with machines do

## Main results

* `Fleet.Paced.length_taken` — who sends finds that everybody has taken once more than it has sent
* `Fleet.Carried.step` — whoever moves, the trays hold what was sent in one tick
* `Simulation.exists_schedule` — a simulation, in which the robots think one after the other, is
  one of the schedules
* `Fleet.hears_what_was_sent` — nothing is lost, nothing comes twice and nothing is made up
-/

namespace SwarmVm

namespace Radio

/-- The payloads that wait for a robot. -/
def tray (r : Radio) (robot : Nat) : Array Payload := r.trays.getD robot #[]

/-- A robot empties its tray. -/
def take (r : Radio) (robot : Nat) : Array Payload × Radio :=
  (r.tray robot, ⟨r.trays.setIfInBounds robot #[]⟩)

variable {r : Radio} {robot other range sender : Nat} {payloads : List Payload}

@[simp] theorem tray_make (robots robot : Nat) : (make robots).tray robot = #[] := by
  by_cases h : robot < robots <;> simp [tray, make, Array.getD, h]

@[simp] theorem size_take : (r.take robot).2.trays.size = r.trays.size := by
  simp [take]

@[simp] theorem size_send : (r.send range sender payloads).trays.size = r.trays.size := by
  simp [send]

theorem tray_take_self : (r.take robot).2.tray robot = #[] := by
  by_cases h : robot < r.trays.size <;> simp [tray, take, Array.getD, h]

theorem tray_take_of_ne (h : other ≠ robot) : (r.take robot).2.tray other = r.tray other := by
  simp only [tray, take, Array.getD_eq_getD_getElem?]
  rw [Array.getElem?_setIfInBounds_ne h.symm]

/-- A radio with empty trays. -/
theorem eq_make {robots : Nat} (hsize : r.trays.size = robots)
    (hempty : ∀ robot : Fin robots, r.tray robot = #[]) : r = make robots := by
  cases r with
  | mk trays =>
    refine congrArg mk (Array.ext (by simpa [make] using hsize) fun i hi _ => ?_)
    have htray := hempty ⟨i, hsize ▸ hi⟩
    simpa [tray, Array.getD, hi] using htray

theorem tray_send (h : robot < r.trays.size) : (r.send range sender payloads).tray robot
    = if inRange range sender robot then r.tray robot ++ payloads.toArray else r.tray robot := by
  simp [tray, send, Array.getD, h]

end Radio

variable {n : Nat} {σ : Type}

/-- What the robots of a fleet do, for how many ticks and how far they are heard. -/
structure Mission (n : Nat) (σ : Type) where
  /-- How many places the radio reaches. -/
  range : Nat
  /-- How many ticks there are. -/
  ticks : Nat
  /-- A robot with this mind has not failed. -/
  isAlive : σ → Bool
  /-- What a robot sends in a tick, and its mind after it, given the payloads it took. -/
  cycle : Fin n → σ → List Payload → List Payload × σ

namespace Mission

/-- The robots that a robot can hear. -/
def audible (μ : Mission n σ) (v : Fin n) : List (Fin n) :=
  (List.finRange n).filter fun u => Radio.inRange μ.range u v

/-- What a robot sends in one tick. A robot that failed is silent. -/
def answer (μ : Mission n σ) (t : Fin n) (mind : σ) (heard : List Payload) : List Payload × σ :=
  if μ.isAlive mind then μ.cycle t mind heard else ([], mind)

/-- What a robot sends tick by tick. -/
def answers (μ : Mission n σ) (t : Fin n) (mind : σ) : List (List Payload) → List (List Payload) × σ
  | [] => ([], mind)
  | heard :: rest =>
    let first := μ.answer t mind heard
    let later := μ.answers t first.2 rest
    (first.1 :: later.1, later.2)

theorem answers_concat (μ : Mission n σ) (t : Fin n) (mind : σ) (heard : List (List Payload))
    (last : List Payload) : μ.answers t mind (heard ++ [last])
      = ((μ.answers t mind heard).1 ++ [(μ.answer t (μ.answers t mind heard).2 last).1],
        (μ.answer t (μ.answers t mind heard).2 last).2) := by
  induction heard generalizing mind with
  | nil => rfl
  | cons first heard ih => simp [answers, ih]

end Mission

/-- How far a robot has come in a tick. -/
inductive Fleet.Phase where
  /-- Between two ticks. -/
  | ready
  /-- In the first wait. -/
  | gathering
  /-- Everybody has sent, and the tray can be taken. -/
  | taking
  /-- The tray is taken. -/
  | parting (heard : List Payload)
  /-- In the second wait. -/
  | settling (heard : List Payload)
  /-- Everybody has taken their tray. -/
  | thinking (heard : List Payload)
  /-- About to put these payloads in the trays of everyone in range. -/
  | sending (payloads : List Payload)
deriving DecidableEq, Repr

namespace Fleet.Phase

/-- The waits of the tick that were entered. -/
def entered : Phase → Nat
  | ready => 0
  | gathering | taking | parting _ => 1
  | settling _ | thinking _ | sending _ => 2

/-- The waits of the tick that are over. -/
def returned : Phase → Nat
  | ready | gathering => 0
  | taking | parting _ | settling _ => 1
  | thinking _ | sending _ => 2

/-- Whether the tray of the tick is taken. -/
def took : Phase → Nat
  | ready | gathering | taking => 0
  | parting _ | settling _ | thinking _ | sending _ => 1

@[simp] theorem entered_ready : entered ready = 0 := rfl
@[simp] theorem returned_ready : returned ready = 0 := rfl
@[simp] theorem took_ready : took ready = 0 := rfl

/-- A tray is taken between the two waits of its tick. -/
theorem took_bounds (p : Fleet.Phase) :
    p.took ≤ 1 ∧ p.took ≤ p.returned ∧ p.returned ≤ p.entered ∧ p.entered ≤ p.took + 1 := by
  cases p <;> simp [took, returned, entered]

end Fleet.Phase

/-- Robots with the radio they share, and what they have done so far. -/
structure Fleet (n : Nat) (σ : Type) where
  /-- What is on its way. -/
  radio : Radio
  /-- How far everybody has come in their tick. -/
  phase : Fin n → Fleet.Phase
  /-- How many waits everybody has entered. -/
  entered : Fin n → Nat
  /-- From how many waits everybody has returned. -/
  returned : Fin n → Nat
  /-- The minds of the robots. -/
  mind : Fin n → σ
  /-- What everybody has taken, tick by tick. -/
  taken : Fin n → List (List Payload)
  /-- What everybody has sent, tick by tick. -/
  sent : Fin n → List (List Payload)

namespace Fleet

/-- Robots with these minds before the first tick. -/
def start (mind : Fin n → σ) : Fleet n σ where
  radio := Radio.make n
  phase _ := .ready
  entered _ := 0
  returned _ := 0
  mind := mind
  taken _ := []
  sent _ := []

/-- A robot comes to another phase. -/
def go (s : Fleet n σ) (t : Fin n) (phase : Phase) : Fleet n σ :=
  { s with phase := Function.update s.phase t phase }

/-- A robot enters its next wait. -/
def enter (s : Fleet n σ) (t : Fin n) : Fleet n σ :=
  { s with entered := Function.update s.entered t (s.entered t + 1) }

/-- A robot returns from its wait. -/
def leave (s : Fleet n σ) (t : Fin n) : Fleet n σ :=
  { s with returned := Function.update s.returned t (s.returned t + 1) }

/-- Everybody has entered the wait that the robot is in. -/
def opens (s : Fleet n σ) (t : Fin n) : Bool := decide (∀ u, s.returned t < s.entered u)

/-- A robot empties its tray. -/
def take (s : Fleet n σ) (t : Fin n) : Fleet n σ :=
  { s with
    radio := (s.radio.take t).2
    taken := Function.update s.taken t (s.taken t ++ [(s.radio.take t).1.toList]) }

/-- A robot ends its tick with these payloads sent. -/
def close (s : Fleet n σ) (t : Fin n) (payloads : List Payload) : Fleet n σ :=
  { s with sent := Function.update s.sent t (s.sent t ++ [payloads]) }

/-- What a robot does when it is its turn. In a wait that not everybody has entered it stays where
it is, and after the last tick it is done. -/
def step (μ : Mission n σ) (s : Fleet n σ) (t : Fin n) : Fleet n σ :=
  match s.phase t with
  | .ready => if (s.sent t).length < μ.ticks then (s.enter t).go t .gathering else s
  | .gathering => if s.opens t then (s.leave t).go t .taking else s
  | .taking => (s.take t).go t (.parting (s.radio.take t).1.toList)
  | .parting heard => (s.enter t).go t (.settling heard)
  | .settling heard => if s.opens t then (s.leave t).go t (.thinking heard) else s
  | .thinking heard =>
    if μ.isAlive (s.mind t) then
      let (payloads, mind) := μ.cycle t (s.mind t) heard
      { s with mind := Function.update s.mind t mind }.go t (.sending payloads)
    else (s.close t []).go t .ready
  | .sending payloads =>
    ({ s with radio := s.radio.send μ.range t payloads }.close t payloads).go t .ready

/-- Everybody moves as a schedule says. -/
def run (μ : Mission n σ) (s : Fleet n σ) (schedule : List (Fin n)) : Fleet n σ :=
  schedule.foldl (step μ) s

variable {μ : Mission n σ} {s s' : Fleet n σ} {t u v : Fin n} {k : Nat}

/-- Nobody else changes when a robot moves. -/
theorem step_of_ne (hu : u ≠ t) :
    (s.step μ t).phase u = s.phase u ∧ (s.step μ t).entered u = s.entered u
      ∧ (s.step μ t).returned u = s.returned u ∧ (s.step μ t).mind u = s.mind u
      ∧ (s.step μ t).taken u = s.taken u ∧ (s.step μ t).sent u = s.sent u := by
  rw [step]
  split <;> try split
  all_goals simp [go, enter, leave, take, close, hu]

/-! ### How the waits keep the robots together -/

/-- The counts of a robot fit to how far it has come. -/
structure Fits (s : Fleet n σ) (t : Fin n) : Prop where
  entered : s.entered t = 2 * (s.sent t).length + (s.phase t).entered
  returned : s.returned t = 2 * (s.sent t).length + (s.phase t).returned
  taken : (s.taken t).length = (s.sent t).length + (s.phase t).took

namespace Fits

theorem enter (h : s.Fits t) {phase : Phase} (hentered : phase.entered = (s.phase t).entered + 1)
    (hreturned : phase.returned = (s.phase t).returned) (htook : phase.took = (s.phase t).took) :
    ((s.enter t).go t phase).Fits t := by
  constructor
  · simp [go, Fleet.enter, h.entered, hentered, Nat.add_assoc]
  · simp [go, Fleet.enter, h.returned, hreturned]
  · simp [go, Fleet.enter, h.taken, htook]

theorem leave (h : s.Fits t) {phase : Phase} (hentered : phase.entered = (s.phase t).entered)
    (hreturned : phase.returned = (s.phase t).returned + 1)
    (htook : phase.took = (s.phase t).took) : ((s.leave t).go t phase).Fits t := by
  constructor
  · simp [go, Fleet.leave, h.entered, hentered]
  · simp [go, Fleet.leave, h.returned, hreturned, Nat.add_assoc]
  · simp [go, Fleet.leave, h.taken, htook]

/-- The tick of a robot ends after both waits. -/
theorem close (h : s.Fits t) (hentered : (s.phase t).entered = 2)
    (hreturned : (s.phase t).returned = 2) (htook : (s.phase t).took = 1) (radio : Radio)
    (payloads : List Payload) : (({ s with radio }.close t payloads).go t .ready).Fits t := by
  constructor
  · simp [go, Fleet.close, h.entered, hentered, Nat.mul_add]
  · simp [go, Fleet.close, h.returned, hreturned, Nat.mul_add]
  · simp [go, Fleet.close, h.taken, htook]

/-- The counts of a robot go on with its phase. -/
theorem step (h : s.Fits t) : (s.step μ t).Fits t := by
  rw [Fleet.step]
  split
  case h_1 hp =>
    split
    · exact h.enter (by rw [hp]; rfl) (by rw [hp]; rfl) (by rw [hp]; rfl)
    · exact h
  case h_2 hp =>
    split
    · exact h.leave (by rw [hp]; rfl) (by rw [hp]; rfl) (by rw [hp]; rfl)
    · exact h
  case h_3 hp =>
    obtain ⟨hent, hret, htaken⟩ := h
    rw [hp] at hent hret htaken
    constructor
    · simpa [go, take, Phase.entered] using hent
    · simpa [go, take, Phase.returned] using hret
    · simpa [go, take, Phase.took] using htaken
  case h_4 heard hp => exact h.enter (by rw [hp]; rfl) (by rw [hp]; rfl) (by rw [hp]; rfl)
  case h_5 heard hp =>
    split
    · exact h.leave (by rw [hp]; rfl) (by rw [hp]; rfl) (by rw [hp]; rfl)
    · exact h
  case h_6 heard hp =>
    split
    · obtain ⟨hent, hret, htaken⟩ := h
      rw [hp] at hent hret htaken
      constructor
      · simpa [go, Phase.entered] using hent
      · simpa [go, Phase.returned] using hret
      · simpa [go, Phase.took] using htaken
    · exact h.close (by rw [hp]; rfl) (by rw [hp]; rfl) (by rw [hp]; rfl) s.radio []
  case h_7 payloads hp =>
    exact h.close (by rw [hp]; rfl) (by rw [hp]; rfl) (by rw [hp]; rfl) _ payloads

end Fits

theorem entered_le_step (u : Fin n) : s.entered u ≤ (s.step μ t).entered u := by
  by_cases hu : u = t
  · rw [hu, step]
    split <;> try split
    all_goals simp [go, enter, leave, take, close]
  · exact (step_of_ne hu).2.1.ge

/-- A robot returns from a wait only if everybody has entered it. -/
theorem returned_step : (s.step μ t).returned t = s.returned t
    ∨ (s.step μ t).returned t = s.returned t + 1 ∧ s.opens t = true := by
  rw [step]
  split <;> try split
  all_goals simp_all [go, enter, leave, take, close]

/-- Everybody's counts fit, and nobody has returned from a wait that somebody has not entered. -/
structure Paced (s : Fleet n σ) : Prop where
  fits : ∀ t, s.Fits t
  together : ∀ t u, s.returned t ≤ s.entered u

theorem paced_start (mind : Fin n → σ) : (start mind).Paced :=
  ⟨fun _ => ⟨rfl, rfl, rfl⟩, fun _ _ => Nat.le_refl _⟩

namespace Paced

/-- Nobody has sent more often than somebody has taken. -/
theorem length_sent_le (h : s.Paced) (u v : Fin n) : (s.sent u).length ≤ (s.taken v).length := by
  have hbehind := h.together u v
  rw [(h.fits u).returned, (h.fits v).entered] at hbehind
  rw [(h.fits v).taken]
  have hv := (s.phase v).took_bounds
  omega

/-- When somebody can take its tray, everybody has sent what belongs in it. -/
theorem length_taken_le (h : s.Paced) (hp : s.phase t = .taking) (u : Fin n) :
    (s.taken t).length ≤ (s.sent u).length := by
  have hbehind := h.together t u
  rw [(h.fits t).returned, (h.fits u).entered, hp, Phase.returned] at hbehind
  rw [(h.fits t).taken, hp, Phase.took]
  have hu := (s.phase u).took_bounds
  omega

/-- Who sends finds that everybody has taken once more than it has sent. -/
theorem length_taken (h : s.Paced) {payloads : List Payload} (hp : s.phase t = .sending payloads)
    (v : Fin n) : (s.taken v).length = (s.sent t).length + 1 := by
  have hbehind := h.together t v
  have hahead := h.together v t
  rw [(h.fits t).returned, (h.fits v).entered, hp, Phase.returned] at hbehind
  rw [(h.fits v).returned, (h.fits t).entered, hp, Phase.entered] at hahead
  rw [(h.fits v).taken]
  have hv := (s.phase v).took_bounds
  omega

/-- Whoever moves, the waits keep the robots together. -/
theorem step (h : s.Paced) (t : Fin n) : (s.step μ t).Paced := by
  refine ⟨fun u => ?_, fun u v => ?_⟩
  · by_cases hu : u = t
    · rw [hu]
      exact (h.fits t).step
    · obtain ⟨hphase, hent, hret, -, htaken, hsent⟩ := step_of_ne (μ := μ) (s := s) hu
      obtain ⟨h₁, h₂, h₃⟩ := h.fits u
      exact ⟨by rw [hent, hsent, hphase, h₁], by rw [hret, hsent, hphase, h₂],
        by rw [htaken, hsent, hphase, h₃]⟩
  · refine Nat.le_trans ?_ (entered_le_step v)
    by_cases hu : u = t
    · rw [hu]
      rcases returned_step (μ := μ) (s := s) (t := t) with hret | ⟨hret, hopens⟩
      · exact hret.le.trans (h.together t v)
      · rw [hret]
        exact of_decide_eq_true hopens v
    · rw [(step_of_ne hu).2.2.1]
      exact h.together u v

end Paced

/-! ### What is in the trays -/

/-- What a robot sent in the tick before the one with this number. -/
def before (s : Fleet n σ) : Nat → Fin n → List Payload
  | 0, _ => []
  | k + 1, u => (s.sent u).getD k []

/-- These are the payloads that were sent to a robot in the tick before the one with this number:
those of everybody it can hear, robot by robot. -/
def Brings (μ : Mission n σ) (s : Fleet n σ) (v : Fin n) (k : Nat) (payloads : List Payload) :
    Prop :=
  ∃ order : List (Fin n), order.Perm (μ.audible v) ∧ payloads = order.flatMap (s.before k)

/-- A tray holds what was sent since it was taken, and what was taken is what was sent in the tick
before. -/
structure Carried (μ : Mission n σ) (s : Fleet n σ) : Prop where
  size : s.radio.trays.size = n
  tray : ∀ v, s.Brings μ v (s.taken v).length (s.radio.tray v).toList
  taken : ∀ v k heard, (s.taken v)[k]? = some heard →
    (∀ u, k ≤ (s.sent u).length) ∧ s.Brings μ v k heard

/-- Before anybody has sent, nothing is brought. -/
theorem before_of_length_lt (h : (s.sent u).length < k) : s.before k u = [] := by
  cases k with
  | zero => rfl
  | succ k =>
    rw [before, List.getD_eq_getElem?_getD, List.getElem?_eq_none (Nat.le_of_lt_succ h),
      Option.getD_none]

/-- What was sent remains. -/
theorem before_concat {payloads : List Payload} (hsent : s'.sent u = s.sent u ++ [payloads])
    (hk : k ≤ (s.sent u).length) : s'.before k u = s.before k u := by
  cases k with
  | zero => rfl
  | succ k =>
    simp only [before, hsent, List.getD_eq_getElem?_getD]
    rw [List.getElem?_append_left hk]

theorem before_congr (hsent : s'.sent u = s.sent u) : s'.before k u = s.before k u := by
  cases k with
  | zero => rfl
  | succ k => rw [before, before, hsent]

theorem brings_nil (hnone : ∀ u, s.before k u = []) : s.Brings μ v k [] :=
  ⟨_, List.Perm.refl _, by simp [hnone]⟩

theorem Brings.congr {payloads : List Payload} (h : s.Brings μ v k payloads)
    (hbefore : ∀ u ∈ μ.audible v, s'.before k u = s.before k u) : s'.Brings μ v k payloads := by
  obtain ⟨order, hperm, rfl⟩ := h
  exact ⟨order, hperm, List.flatMap_congr fun u hu => (hbefore u (hperm.mem_iff.1 hu)).symm⟩

theorem nodup_audible (μ : Mission n σ) (v : Fin n) : (μ.audible v).Nodup :=
  (List.nodup_finRange n).filter _

theorem mem_audible : u ∈ μ.audible v ↔ Radio.inRange μ.range u v = true := by
  simp [Mission.audible]

/-- Somebody in range sends, having sent nothing that belongs to this tick: its payloads come behind
those of everybody else. -/
theorem Brings.send {payloads sent : List Payload} (h : s.Brings μ v k payloads)
    (hrange : t ∈ μ.audible v) (hnone : s.before k t = []) (hsent : s'.before k t = sent)
    (hothers : ∀ u, u ≠ t → s'.before k u = s.before k u) :
    s'.Brings μ v k (payloads ++ sent) := by
  obtain ⟨order, hperm, rfl⟩ := h
  have hmem : t ∈ order := hperm.mem_iff.2 hrange
  have hnodup : order.Nodup := hperm.nodup_iff.2 (nodup_audible μ v)
  obtain ⟨front, back, rfl⟩ := List.append_of_mem hmem
  have hmoved : (front ++ t :: back).Perm (front ++ back ++ [t]) :=
    List.perm_middle.trans (List.perm_append_singleton t _).symm
  have habsent : t ∉ front ++ back := fun ht =>
    (List.nodup_append.1 (hmoved.nodup_iff.1 hnodup)).2.2 t ht t (List.mem_singleton_self t) rfl
  refine ⟨front ++ back ++ [t], hmoved.symm.trans hperm, ?_⟩
  have hrest : (front ++ back).flatMap (s'.before k) = (front ++ back).flatMap (s.before k) :=
    List.flatMap_congr fun u hu => hothers u fun heq => habsent (heq ▸ hu)
  calc (front ++ t :: back).flatMap (s.before k) ++ sent
      = (front ++ back).flatMap (s.before k) ++ sent := by simp [hnone]
    _ = (front ++ back).flatMap (s'.before k) ++ sent := by rw [hrest]
    _ = (front ++ back ++ [t]).flatMap (s'.before k) := by simp [hsent]

namespace Carried

theorem start (μ : Mission n σ) (mind : Fin n → σ) : (start mind).Carried μ where
  size := by simp [Fleet.start, Radio.make]
  tray v := by
    rw [Fleet.start, Radio.tray_make]
    exact brings_nil fun _ => rfl
  taken v k heard h := by simp [Fleet.start] at h

/-- Nothing is taken or sent. -/
theorem own (h : s.Carried μ) (hradio : s'.radio = s.radio) (htaken : s'.taken = s.taken)
    (hsent : s'.sent = s.sent) : s'.Carried μ := by
  have hbefore (k : Nat) (u : Fin n) : s'.before k u = s.before k u :=
    before_congr (congrFun hsent u)
  refine ⟨by rw [hradio, h.size], fun v => ?_, fun v k heard hheard => ?_⟩
  · rw [hradio, htaken]
    exact (h.tray v).congr fun u _ => hbefore _ u
  · rw [htaken] at hheard
    obtain ⟨hall, hbrings⟩ := h.taken v k heard hheard
    rw [hsent]
    exact ⟨hall, hbrings.congr fun u _ => hbefore _ u⟩

/-- Somebody takes its tray. -/
theorem take (h : s.Carried μ) (hpaced : s.Paced) (hp : s.phase t = .taking) :
    (s.take t).Carried μ := by
  have hbefore (k : Nat) (u : Fin n) : (s.take t).before k u = s.before k u := before_congr rfl
  have hold (v : Fin n) (k : Nat) (heard : List Payload) (hheard : (s.taken v)[k]? = some heard) :
      (∀ u, k ≤ ((s.take t).sent u).length) ∧ (s.take t).Brings μ v k heard :=
    (h.taken v k heard hheard).imp_right fun hbrings => hbrings.congr fun u _ => hbefore k u
  refine ⟨by simp [Fleet.take, h.size], fun v => ?_, fun v k heard hheard => ?_⟩
  · by_cases hv : v = t
    · -- Nobody has sent in the tick that begins for this robot.
      have hnone (u : Fin n) : (s.take t).before ((s.taken t).length + 1) u = [] :=
        before_of_length_lt (Nat.lt_succ_of_le (hpaced.length_sent_le u t))
      simpa [hv, Fleet.take, Radio.tray_take_self] using brings_nil hnone
    · have hne : (v : Nat) ≠ t := fun heq => hv (Fin.ext heq)
      simp only [Fleet.take, Radio.tray_take_of_ne hne, Function.update_of_ne hv]
      exact (h.tray v).congr fun u _ => hbefore _ u
  · by_cases hv : v = t
    · subst hv
      simp only [Fleet.take, Function.update_self, List.getElem?_append] at hheard
      split at hheard
      · exact hold v k heard hheard
      · rw [List.getElem?_singleton] at hheard
        obtain ⟨hk, hheard⟩ := Option.ite_none_right_eq_some.1 hheard
        cases hheard
        obtain rfl : k = (s.taken v).length := by omega
        exact ⟨hpaced.length_taken_le hp, (h.tray v).congr fun u _ => hbefore _ u⟩
    · exact hold v k heard (by simpa [Fleet.take, hv] using hheard)

/-- Somebody ends its tick. What was taken so far was sent before. -/
theorem taken_close (h : s.Carried μ) {payloads : List Payload} (htaken : s'.taken = s.taken)
    (hsent : s'.sent = Function.update s.sent t (s.sent t ++ [payloads])) (v : Fin n) (k : Nat)
    (heard : List Payload) (hheard : (s'.taken v)[k]? = some heard) :
    (∀ u, k ≤ (s'.sent u).length) ∧ s'.Brings μ v k heard := by
  rw [htaken] at hheard
  obtain ⟨hall, hbrings⟩ := h.taken v k heard hheard
  have hgrown (u : Fin n) : k ≤ (s'.sent u).length ∧ s'.before k u = s.before k u := by
    by_cases hu : u = t
    · subst hu
      have hconcat : s'.sent u = s.sent u ++ [payloads] := by rw [hsent, Function.update_self]
      exact ⟨by simpa [hconcat] using Nat.le_succ_of_le (hall u), before_concat hconcat (hall u)⟩
    · have hsame : s'.sent u = s.sent u := by rw [hsent, Function.update_of_ne hu]
      exact ⟨hsame ▸ hall u, before_congr hsame⟩
  exact ⟨fun u => (hgrown u).1, hbrings.congr fun u _ => (hgrown u).2⟩

/-- Somebody who failed ends its tick in silence. -/
theorem skip (h : s.Carried μ) (t : Fin n) : (s.close t []).Carried μ := by
  have hsilent (k : Nat) (u : Fin n) : (s.close t []).before k u = s.before k u := by
    cases k with
    | zero => rfl
    | succ k =>
      by_cases hu : u = t
      · subst hu
        simp only [before, close, Function.update_self, List.getD_eq_getElem?_getD,
          List.getElem?_append]
        split
        · rfl
        · next hk =>
          rw [List.getElem?_eq_none (Nat.le_of_not_lt hk), List.getElem?_singleton]
          split <;> rfl
      · simp [before, close, hu]
  exact ⟨h.size, fun v => (h.tray v).congr fun u _ => hsilent _ u, h.taken_close rfl rfl⟩

/-- Somebody ends its tick, having put payloads in the trays of everybody in range. -/
theorem send (h : s.Carried μ) (hpaced : s.Paced) {payloads : List Payload}
    (hp : s.phase t = .sending payloads) :
    ({ s with radio := s.radio.send μ.range t payloads }.close t payloads).Carried μ := by
  refine ⟨by simp [close, h.size], fun v => ?_, h.taken_close rfl rfl⟩
  have hk := hpaced.length_taken hp v
  have hv : (v : Nat) < s.radio.trays.size := by rw [h.size]; exact v.isLt
  have hnone : s.before (s.taken v).length t = [] := before_of_length_lt (by omega)
  have hothers (u : Fin n) (hu : u ≠ t) :
      ({ s with radio := s.radio.send μ.range t payloads }.close t payloads).before
        (s.taken v).length u = s.before (s.taken v).length u :=
    before_congr (by simp [close, hu])
  simp only [close, Radio.tray_send hv]
  split_ifs with hrange
  · rw [Array.toList_append]
    refine (h.tray v).send (mem_audible.2 hrange) hnone ?_ hothers
    simp [before, hk]
  · refine (h.tray v).congr fun u hu => hothers u fun heq => ?_
    exact hrange (mem_audible.1 (heq ▸ hu))

/-- Whoever moves, the trays hold what was sent in one tick. -/
theorem step (h : s.Carried μ) (hpaced : s.Paced) (t : Fin n) : (s.step μ t).Carried μ := by
  rw [Fleet.step]
  split
  case h_1 hp =>
    split_ifs
    · exact h.own rfl rfl rfl
    · exact h
  case h_2 hp =>
    split_ifs
    · exact h.own rfl rfl rfl
    · exact h
  case h_3 hp => exact (h.take hpaced hp).own rfl rfl rfl
  case h_4 heard hp => exact h.own rfl rfl rfl
  case h_5 heard hp =>
    split_ifs
    · exact h.own rfl rfl rfl
    · exact h
  case h_6 heard hp =>
    split_ifs
    · exact h.own rfl rfl rfl
    · exact (h.skip t).own rfl rfl rfl
  case h_7 payloads hp => exact (h.send hpaced hp).own rfl rfl rfl

end Carried

/-! ### What the robots answer -/

/-- What a robot has sent, and its mind, follow from what it has taken. -/
def Answers (μ : Mission n σ) (mind : Fin n → σ) (s : Fleet n σ) (t : Fin n) : Prop :=
  match s.phase t with
  | .ready | .gathering | .taking => μ.answers t (mind t) (s.taken t) = (s.sent t, s.mind t)
  | .parting heard | .settling heard | .thinking heard => ∃ earlier,
    s.taken t = earlier ++ [heard] ∧ μ.answers t (mind t) earlier = (s.sent t, s.mind t)
  | .sending payloads => μ.answers t (mind t) (s.taken t) = (s.sent t ++ [payloads], s.mind t)

variable {mind : Fin n → σ}

theorem Answers.congr (h : s.Answers μ mind u) (hphase : s'.phase u = s.phase u)
    (hmind : s'.mind u = s.mind u) (htaken : s'.taken u = s.taken u)
    (hsent : s'.sent u = s.sent u) : s'.Answers μ mind u := by
  rw [Answers, hphase, hmind, htaken, hsent]
  exact h

/-- A robot answers what it has taken, and nobody else changes. -/
theorem Answers.step (h : ∀ u, s.Answers μ mind u) (t u : Fin n) :
    (s.step μ t).Answers μ mind u := by
  by_cases hu : u = t
  · subst hu
    have hu := h u
    rw [Answers] at hu
    rw [Fleet.step]
    split
    case h_1 hp =>
      rw [hp] at hu
      split
      · simpa [Answers, go, enter] using hu
      · exact h u
    case h_2 hp =>
      rw [hp] at hu
      split
      · simpa [Answers, go, leave] using hu
      · exact h u
    case h_3 hp =>
      rw [hp] at hu
      simpa [Answers, go, take] using hu
    case h_4 heard hp =>
      rw [hp] at hu
      simpa [Answers, go, enter] using hu
    case h_5 heard hp =>
      rw [hp] at hu
      split
      · simpa [Answers, go, leave] using hu
      · exact h u
    case h_6 heard hp =>
      rw [hp] at hu
      obtain ⟨earlier, htaken, hearlier⟩ := hu
      have hanswers := μ.answers_concat u (mind u) earlier heard
      rw [hearlier, ← htaken, Mission.answer] at hanswers
      split
      · next halive => simpa [Answers, go, halive] using hanswers
      · next hfailed => simpa [Answers, go, close, hfailed] using hanswers
    case h_7 payloads hp =>
      rw [hp] at hu
      simpa [Answers, go, close] using hu
  · obtain ⟨hphase, -, -, hmind, htaken, hsent⟩ := step_of_ne (μ := μ) (s := s) hu
    exact (h u).congr hphase hmind htaken hsent

/-- What a robot has sent is what it answers to what it has taken. -/
theorem Answers.initial (h : s.Answers μ mind t) :
    s.sent t <+: (μ.answers t (mind t) (s.taken t)).1 := by
  have hconcat {heard : List Payload} (h : ∃ earlier, s.taken t = earlier ++ [heard]
      ∧ μ.answers t (mind t) earlier = (s.sent t, s.mind t)) :
      s.sent t <+: (μ.answers t (mind t) (s.taken t)).1 := by
    obtain ⟨earlier, htaken, hearlier⟩ := h
    rw [htaken, μ.answers_concat, hearlier]
    exact List.prefix_append _ _
  rw [Answers] at h
  split at h
  case h_1 | h_2 | h_3 => simp [h]
  case h_4 | h_5 | h_6 => exact hconcat h
  case h_7 => rw [h]; exact List.prefix_append _ _

/-! ### Runs -/

/-- Whatever the schedule, the robots are kept together, the trays hold what was sent in one tick,
and everybody answers what it has taken. -/
theorem run_start (μ : Mission n σ) (mind : Fin n → σ) (schedule : List (Fin n)) :
    ((start mind).run μ schedule).Paced ∧ ((start mind).run μ schedule).Carried μ
      ∧ ∀ t, ((start mind).run μ schedule).Answers μ mind t := by
  induction schedule using List.reverseRecOn with
  | nil => exact ⟨paced_start mind, .start μ mind, fun _ => rfl⟩
  | append_singleton schedule t ih =>
    obtain ⟨hpaced, hcarried, hanswers⟩ := ih
    rw [run, List.foldl_append]
    exact ⟨hpaced.step t, hcarried.step hpaced t, Answers.step hanswers t⟩

/-! ### One robot after the other -/

/-- If one robot after the other can be dealt with, then all can. -/
theorem sweep {P : List (Fin n) → Fleet n σ → Prop}
    (hstep : ∀ t todo s, t ∉ todo → P (t :: todo) s → ∃ schedule, P todo (s.run μ schedule))
    {todo : List (Fin n)} (hnodup : todo.Nodup) (h : P todo s) :
    ∃ schedule, P [] (s.run μ schedule) := by
  induction todo generalizing s with
  | nil => exact ⟨[], h⟩
  | cons t todo ih =>
    obtain ⟨ht, hnodup⟩ := List.nodup_cons.1 hnodup
    obtain ⟨first, hfirst⟩ := hstep t todo s ht h
    obtain ⟨rest, hrest⟩ := ih hnodup hfirst
    exact ⟨first ++ rest, by rwa [run, List.foldl_append]⟩

/-- Everybody has sent `k` times; some robots are still in one phase, the others in the next. -/
structure Amid (k : Nat) (radio : Radio) (mind : Fin n → σ) (p q : Fin n → Phase)
    (todo : List (Fin n)) (s : Fleet n σ) : Prop where
  paced : s.Paced
  radio : s.radio = radio
  mind : s.mind = mind
  sent : ∀ t, (s.sent t).length = k
  phase : ∀ t, s.phase t = if t ∈ todo then p t else q t

namespace Amid

variable {radio : Radio} {p q : Fin n → Phase} {todo : List (Fin n)}

/-- What a robot that moves without taking or sending has to do with the others. -/
theorem step (h : Amid k radio mind p q (t :: todo) s) (ht : t ∉ todo) {r : Radio}
    (hradio : (s.step μ t).radio = r) (hmind : (s.step μ t).mind = s.mind)
    (hsent : (s.step μ t).sent = s.sent) (hphase : (s.step μ t).phase t = q t) :
    Amid k r mind p q todo (s.step μ t) where
  paced := h.paced.step t
  radio := hradio
  mind := hmind.trans h.mind
  sent := by rw [hsent]; exact h.sent
  phase u := by
    by_cases hu : u = t
    · rw [hu, hphase, if_neg ht]
    · rw [(step_of_ne hu).1, h.phase u]
      simp [hu]

/-- Everybody goes on to the next phase, and nobody takes or sends. -/
theorem sweep (h : Amid k radio mind p q (List.finRange n) s)
    (hstep : ∀ t todo s, Amid k radio mind p q (t :: todo) s → s.phase t = p t →
      (s.step μ t).radio = s.radio ∧ (s.step μ t).mind = s.mind ∧ (s.step μ t).sent = s.sent
        ∧ (s.step μ t).phase t = q t) :
    ∃ schedule, Amid k radio mind p q [] (s.run μ schedule) := by
  refine Fleet.sweep (fun t todo s ht h => ⟨[t], ?_⟩) (List.nodup_finRange n) h
  obtain ⟨hradio, hmind, hsent, hphase⟩ :=
    hstep t todo s h (by rw [h.phase t, if_pos List.mem_cons_self])
  exact h.step ht (hradio.trans h.radio) hmind hsent hphase

/-- Nobody is held back in a wait that everybody is in. -/
theorem opens (h : Amid k radio mind p q (t :: todo) s) {c : Nat}
    (hp : ∀ u, (p u).returned = c ∧ (p u).entered = c + 1) (hq : ∀ u, (q u).entered = c + 1) :
    s.opens t = true := by
  refine decide_eq_true fun u => ?_
  have hentered : (s.phase u).entered = c + 1 := by
    rw [h.phase u]
    split
    · exact (hp u).2
    · exact hq u
  rw [(h.paced.fits t).returned, (h.paced.fits u).entered, h.sent t, h.sent u, h.phase t,
    if_pos List.mem_cons_self, (hp t).1, hentered]
  omega

/-- When everybody is done, the next phase begins. -/
theorem next (h : Amid k radio mind p q [] s) (q' : Fin n → Phase) :
    Amid k radio mind q q' (List.finRange n) s :=
  ⟨h.paced, h.radio, h.mind, h.sent, fun t => by simp [h.phase t]⟩

end Amid

theorem run_append (first rest : List (Fin n)) :
    s.run μ (first ++ rest) = (s.run μ first).run μ rest := by
  rw [run, List.foldl_append, run, run]

/-- Some robots have emptied their trays, and the others have not. -/
structure Emptying (k : Nat) (radio : Radio) (mind : Fin n → σ) (todo : List (Fin n))
    (s : Fleet n σ) : Prop where
  amid : Amid k s.radio mind (fun _ => .taking) (fun t => .parting (radio.tray t).toList) todo s
  size : s.radio.trays.size = n
  tray : ∀ t : Fin n, s.radio.tray t = if t ∈ todo then radio.tray t else #[]

theorem Emptying.step {radio : Radio} {todo : List (Fin n)}
    (h : Emptying k radio mind (t :: todo) s) (ht : t ∉ todo) :
    Emptying k radio mind todo (s.step μ t) := by
  have hp : s.phase t = .taking := by rw [h.amid.phase t, if_pos List.mem_cons_self]
  have hmove : s.step μ t = (s.take t).go t (.parting (s.radio.take t).1.toList) := by
    rw [Fleet.step, hp]
  have hradio : (s.step μ t).radio = (s.radio.take t).2 := by rw [hmove]; rfl
  have hheard : (s.radio.take t).1 = radio.tray t := by
    rw [Radio.take, h.tray t, if_pos List.mem_cons_self]
  refine ⟨h.amid.step ht rfl ?_ ?_ ?_, by rw [hradio, Radio.size_take, h.size], fun u => ?_⟩
  · rw [hmove]; rfl
  · rw [hmove]; rfl
  · simp [hmove, go, hheard]
  · rw [hradio]
    by_cases hu : u = t
    · rw [hu, Radio.tray_take_self, if_neg ht]
    · rw [Radio.tray_take_of_ne fun heq => hu (Fin.ext heq), h.tray u]
      simp [hu]

/-- Everybody takes its tray between the two waits. -/
theorem sweep_take {radio : Radio} (hsize : radio.trays.size = n)
    (h : Amid k radio mind (fun _ => .taking) (fun t => .parting (radio.tray t).toList)
      (List.finRange n) s) :
    ∃ schedule, Amid k (Radio.make n) mind (fun _ => .taking)
      (fun t => .parting (radio.tray t).toList) [] (s.run μ schedule) := by
  have hstart : Emptying k radio mind (List.finRange n) s :=
    ⟨h.radio ▸ h, h.radio ▸ hsize, fun t => by simp [h.radio]⟩
  obtain ⟨schedule, hend⟩ :=
    sweep (μ := μ) (fun t _ _ ht h => ⟨[t], h.step ht⟩) (List.nodup_finRange n) hstart
  have hmake : (s.run μ schedule).radio = Radio.make n :=
    Radio.eq_make hend.size fun t => by simpa using hend.tray t
  exact ⟨schedule, hmake ▸ hend.amid⟩

/-- A tick up to the point where everybody thinks. -/
theorem exists_thinking {radio : Radio} (hsize : radio.trays.size = n) (hk : k < μ.ticks)
    (h : Amid k radio mind (fun _ => .ready) (fun _ => .gathering) (List.finRange n) s) :
    ∃ schedule, Amid k (Radio.make n) mind (fun t => .settling (radio.tray t).toList)
      (fun t => .thinking (radio.tray t).toList) [] (s.run μ schedule) := by
  obtain ⟨first, h⟩ := h.sweep (μ := μ) fun t todo s h hp => by
    rw [Fleet.step, hp, h.sent t]
    simp [hk, go, enter]
  obtain ⟨second, h⟩ := (h.next fun _ => .taking).sweep (μ := μ) fun t todo s h hp => by
    have hopens := h.opens (c := 0) (fun _ => ⟨rfl, rfl⟩) fun _ => rfl
    rw [Fleet.step, hp]
    simp [hopens, go, leave]
  obtain ⟨third, h⟩ := sweep_take (μ := μ) hsize (h.next _)
  obtain ⟨fourth, h⟩ := (h.next fun t => .settling (radio.tray t).toList).sweep (μ := μ)
    fun t todo s h hp => by
      rw [Fleet.step, hp]
      simp [go, enter]
  obtain ⟨fifth, h⟩ := (h.next fun t => .thinking (radio.tray t).toList).sweep (μ := μ)
    fun t todo s h hp => by
      have hopens := h.opens (c := 1) (fun _ => ⟨rfl, rfl⟩) fun _ => rfl
      rw [Fleet.step, hp]
      simp [hopens, go, leave]
  exact ⟨first ++ (second ++ (third ++ (fourth ++ fifth))), by simpa only [run_append] using h⟩

/-- The turn of a robot that failed. -/
theorem turn_of_failed {heard : List Payload} (hp : s.phase t = .thinking heard)
    (hfailed : μ.isAlive (s.mind t) = false) :
    s.run μ [t] = (s.close t []).go t .ready := by
  rw [run, List.foldl_cons, List.foldl_nil, step, hp]
  exact if_neg (by simp [hfailed])

/-- The turn of a robot that has not failed. -/
theorem turn_of_alive {heard : List Payload} (hp : s.phase t = .thinking heard)
    (halive : μ.isAlive (s.mind t) = true) :
    (s.run μ [t, t]).radio = s.radio.send μ.range t (μ.cycle t (s.mind t) heard).1
      ∧ (s.run μ [t, t]).phase = Function.update s.phase t .ready
      ∧ (s.run μ [t, t]).mind = Function.update s.mind t (μ.cycle t (s.mind t) heard).2
      ∧ (s.run μ [t, t]).sent
        = Function.update s.sent t (s.sent t ++ [(μ.cycle t (s.mind t) heard).1]) := by
  have hthink : s.step μ t
      = { s with mind := Function.update s.mind t (μ.cycle t (s.mind t) heard).2 }.go t
        (.sending (μ.cycle t (s.mind t) heard).1) := by
    rw [step, hp]
    exact if_pos halive
  rw [run, List.foldl_cons, List.foldl_cons, List.foldl_nil, hthink, step]
  simp [go, close]

end Fleet

/-- What robots with machines do. -/
def Robot.mission (robots range ticks : Nat) : Mission robots Robot where
  range := range
  ticks := ticks
  isAlive := Robot.succeeded
  cycle i r heard :=
    match r.machine with
    | none => ([], r)
    | some m =>
      let (sent, m) := Robot.cycle (Radio.sightings robots range i) heard m
      (sent, ⟨some m, #[]⟩)

namespace Simulation

variable {sim : Simulation} {s : Fleet n Robot} {t : Fin n} {k : Nat}

theorem robotCycle_of_failed {i : Nat} {r : Robot} (hr : sim.robots[i]? = some r)
    (hfailed : r.succeeded = false) (heard : Array Payload) : sim.robotCycle i heard = sim := by
  rw [robotCycle, hr, Option.bind_some]
  split
  · rfl
  · next m hm =>
    simp only [Robot.succeeded, hm, Option.any_some] at hfailed
    rw [hfailed, if_neg Bool.false_ne_true]

theorem robotCycle_of_succeeded (ticks : Nat) (hsize : sim.robots.size = n) {r : Robot}
    (hr : sim.robots[(t : Nat)]? = some r) (halive : r.succeeded = true) (heard : Array Payload) :
    sim.robotCycle t heard = { sim with
      robots := sim.robots.setIfInBounds t
        ((Robot.mission n sim.range ticks).cycle t r heard.toList).2
      radio := sim.radio.send sim.range t
        ((Robot.mission n sim.range ticks).cycle t r heard.toList).1 } := by
  rw [robotCycle, hr, Option.bind_some]
  split
  · next hnone => simp [Robot.succeeded, hnone] at halive
  · next m hm =>
    simp only [Robot.succeeded, hm, Option.any_some] at halive
    rw [halive, if_pos rfl]
    simp only [Robot.mission, hm, hsize]

/-- A fleet and a simulation have the same robots, and the same is on its way. -/
structure Mirrors (sim : Simulation) (s : Fleet n Robot) : Prop where
  size : sim.robots.size = n
  trays : sim.radio.trays.size = n
  robots : ∀ t : Fin n, sim.robots[(t : Nat)]? = some (s.mind t)
  radio : sim.radio = s.radio

/-- Some robots still have to think about what they have heard, and the simulation as well. -/
structure Midway (k range : Nat) (heard : Array (Array Payload)) (result : Simulation)
    (todo : List (Fin n)) (s : Fleet n Robot) : Prop where
  paced : s.Paced
  mirrors : ∃ sim : Simulation, sim.Mirrors s ∧ sim.range = range
    ∧ result = todo.foldl (fun sim t => sim.robotCycle t (heard.getD t #[])) sim
  phase : ∀ t, s.phase t = if t ∈ todo then .thinking (heard.getD t #[]).toList else .ready
  sent : ∀ t, (s.sent t).length = if t ∈ todo then k else k + 1

/-- One robot is done. -/
theorem Midway.close {range : Nat} {heard : Array (Array Payload)} {result : Simulation}
    {todo : List (Fin n)} (h : Midway k range heard result (t :: todo) s) (ht : t ∉ todo)
    {s' : Fleet n Robot} (hpaced : s'.Paced) (hphase : s'.phase = Function.update s.phase t .ready)
    (payloads : List Payload)
    (hsent : s'.sent = Function.update s.sent t (s.sent t ++ [payloads]))
    (hresult : result = todo.foldl (fun sim t => sim.robotCycle t (heard.getD t #[])) sim)
    (hrange : sim.range = range) (hmirrors : sim.Mirrors s') :
    Midway k range heard result todo s' := by
  refine ⟨hpaced, ⟨sim, hmirrors, hrange, hresult⟩, fun u => ?_, fun u => ?_⟩
  · by_cases hu : u = t
    · simp [hphase, hu, ht]
    · simp [hphase, h.phase u, hu]
  · by_cases hu : u = t
    · simp [hsent, hu, ht, h.sent t]
    · simp [hsent, h.sent u, hu]

/-- One robot thinks and sends, or stays silent, in the fleet and in the simulation. -/
theorem Midway.step {range : Nat} {heard : Array (Array Payload)} {result : Simulation}
    {todo : List (Fin n)} (h : Midway k range heard result (t :: todo) s) (ht : t ∉ todo)
    (ticks : Nat) : ∃ schedule,
      Midway k range heard result todo (s.run (Robot.mission n range ticks) schedule) := by
  obtain ⟨sim, hmirrors, rfl, hresult⟩ := h.mirrors
  rw [List.foldl_cons] at hresult
  have hp : s.phase t = .thinking (heard.getD t #[]).toList := by
    rw [h.phase t, if_pos List.mem_cons_self]
  cases halive : (s.mind t).succeeded with
  | false =>
    have hturn := Fleet.turn_of_failed (μ := Robot.mission n sim.range ticks) hp halive
    rw [robotCycle_of_failed (hmirrors.robots t) halive] at hresult
    refine ⟨[t], h.close ht (h.paced.step t) ?_ [] ?_ hresult rfl ?_⟩
    · rw [hturn]; rfl
    · rw [hturn]; rfl
    · rw [hturn]
      exact ⟨hmirrors.size, hmirrors.trays, hmirrors.robots, hmirrors.radio⟩
  | true =>
    obtain ⟨hradio, hphase, hmind, hsent⟩ :=
      Fleet.turn_of_alive (μ := Robot.mission n sim.range ticks) hp halive
    rw [robotCycle_of_succeeded ticks hmirrors.size (hmirrors.robots t) halive] at hresult
    refine ⟨[t, t], h.close ht ((h.paced.step t).step t) hphase _ hsent hresult rfl ?_⟩
    refine ⟨by simpa using hmirrors.size, by simpa using hmirrors.trays, fun u => ?_, ?_⟩
    · rw [hmind]
      by_cases hu : u = t
      · subst hu
        simp [hmirrors.size]
      · have hne : (t : Nat) ≠ u := fun heq => hu (Fin.ext heq.symm)
        rw [Array.getElem?_setIfInBounds_ne hne, Function.update_of_ne hu]
        exact hmirrors.robots u
    · rw [hradio, hmirrors.radio]
      rfl

/-- After `k` ticks, in the fleet and in the simulation. -/
structure Between (k : Nat) (sim : Simulation) (s : Fleet n Robot) : Prop where
  paced : s.Paced
  mirrors : sim.Mirrors s
  phase : ∀ t, s.phase t = .ready
  sent : ∀ t, (s.sent t).length = k

/-- One tick, in the fleet and in the simulation. -/
theorem Between.tick (h : Between k sim s) {ticks : Nat} (hk : k < ticks) : ∃ schedule,
    sim.tick.range = sim.range
      ∧ Between (k + 1) sim.tick (s.run (Robot.mission n sim.range ticks) schedule) := by
  have hstart : Fleet.Amid k sim.radio s.mind (fun _ => .ready) (fun _ => .gathering)
      (List.finRange n) s :=
    ⟨h.paced, h.mirrors.radio.symm, rfl, h.sent, fun t => by simp [h.phase t]⟩
  obtain ⟨first, hthinking⟩ :=
    Fleet.exists_thinking (μ := Robot.mission n sim.range ticks) h.mirrors.trays hk hstart
  have hmidway : Midway k sim.range sim.radio.trays sim.tick (List.finRange n)
      (s.run (Robot.mission n sim.range ticks) first) := by
    refine ⟨hthinking.paced, ⟨{ sim with radio := Radio.make n }, ?_, rfl, ?_⟩, fun t => ?_,
      fun t => ?_⟩
    · refine ⟨h.mirrors.size, by simp [Radio.make], ?_, hthinking.radio.symm⟩
      rw [hthinking.mind]
      exact h.mirrors.robots
    · simp only [Simulation.tick, Radio.takeAll, h.mirrors.trays, h.mirrors.size]
      rw [← List.map_coe_finRange_eq_range, List.foldl_map]
    · simp [hthinking.phase t, Radio.tray]
    · simp [hthinking.sent t]
  obtain ⟨second, hend⟩ :=
    Fleet.sweep (fun t todo s ht h => h.step ht ticks) (List.nodup_finRange n) hmidway
  obtain ⟨sim', hmirrors, hrange, hresult⟩ := hend.mirrors
  rw [List.foldl_nil] at hresult
  rw [← Fleet.run_append] at hend hmirrors
  subst hresult
  exact ⟨first ++ second, hrange, hend.paced, hmirrors, fun t => by simpa using hend.phase t,
    fun t => by simpa using hend.sent t⟩

/-- A number of ticks, in the fleet and in the simulation. -/
theorem Between.ticks {ticks : Nat} (h : Between k sim s) (j : Nat) (hj : k + j ≤ ticks) :
    ∃ schedule,
      Between (k + j) (sim.ticks j) (s.run (Robot.mission n sim.range ticks) schedule) := by
  induction j generalizing k sim s with
  | zero => exact ⟨[], h⟩
  | succ j ih =>
    have hk : k < ticks := by omega
    obtain ⟨first, hrange, hnext⟩ := h.tick hk
    obtain ⟨rest, hrest⟩ := ih hnext (by omega)
    rw [hrange, ← Fleet.run_append] at hrest
    rw [Simulation.ticks, ← Nat.add_assoc, Nat.add_right_comm]
    exact ⟨first ++ rest, hrest⟩

/-- A simulation in which the robots think one after the other is one of the schedules. -/
theorem exists_schedule (sim : Simulation) (hradio : sim.radio = Radio.make sim.robots.size)
    (ticks : Nat) : ∃ schedule, Between ticks (sim.ticks ticks)
      ((Fleet.start fun i => sim.robots[i]).run (Robot.mission sim.robots.size sim.range ticks)
        schedule) := by
  have hstart : Between 0 sim (Fleet.start fun i : Fin sim.robots.size => sim.robots[i]) := by
    refine ⟨Fleet.paced_start _, ⟨rfl, by simp [hradio, Radio.make], fun t => ?_, hradio⟩,
      fun _ => rfl, fun _ => rfl⟩
    exact Array.getElem?_eq_getElem t.isLt
  simpa using hstart.ticks ticks (by omega)

end Simulation

/-- **The radio loses nothing and makes nothing up.** Whatever the robots do, whichever of them fail
and whoever moves when, a robot hears nothing in its first tick; and when it takes its tray in a
later tick, everybody has sent in the tick before, and what it takes is what everybody in range of
it has sent then, robot by robot in some order, the payloads of one robot in the order in which they
were sent. What a robot has sent is what it answers to what it has taken. A simulation in which the
robots think one after the other is one of the schedules. -/
theorem Fleet.hears_what_was_sent :
    (∀ {n : Nat} {σ : Type} (μ : Mission n σ) (mind : Fin n → σ) (schedule : List (Fin n)),
      (∀ v heard, (((start mind).run μ schedule).taken v)[0]? = some heard → heard = [])
      ∧ (∀ v k heard, (((start mind).run μ schedule).taken v)[k + 1]? = some heard →
        (∀ u, k < (((start mind).run μ schedule).sent u).length)
        ∧ ∃ order : List (Fin n),
          order.Perm ((List.finRange n).filter fun u => Radio.inRange μ.range u v)
          ∧ heard = order.flatMap fun u => (((start mind).run μ schedule).sent u).getD k [])
      ∧ ∀ u, ((start mind).run μ schedule).sent u
        <+: (μ.answers u (mind u) (((start mind).run μ schedule).taken u)).1)
    ∧ ∀ sim : Simulation, sim.radio = Radio.make sim.robots.size → ∀ ticks, ∃ schedule,
      (sim.ticks ticks).Between ticks ((start fun i => sim.robots[i]).run
        (Robot.mission sim.robots.size sim.range ticks) schedule) := by
  refine ⟨fun {n σ} μ mind schedule => ?_, Simulation.exists_schedule⟩
  obtain ⟨-, hcarried, hanswers⟩ := run_start μ mind schedule
  refine ⟨fun v heard hheard => ?_, fun v k heard hheard => hcarried.taken v (k + 1) heard hheard,
    fun u => (hanswers u).initial⟩
  obtain ⟨-, order, -, rfl⟩ := hcarried.taken v 0 heard hheard
  simp [before]

end SwarmVm
