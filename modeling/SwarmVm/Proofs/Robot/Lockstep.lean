import Mathlib.Data.Fintype.Card
import Mathlib.Data.List.FinRange
import SwarmVm.Barrier

/-!
# Participants at a barrier

As many participants as a barrier asks for wait at it again and again. Between two waits a
participant is away; in a wait it takes the lock, arrives, and then either lets the others go or
sleeps until the sense that it found is no longer current. It is up to a schedule who moves next: a
participant that cannot get the lock stays where it is, and one that sleeps may wake at any time,
notified or not.

A participant that is fast enough arrives for the next round while others of the last one have not
woken yet. So the senses that are remembered can differ, and what they mean is said by counting
rounds: a participant that remembers the current sense has arrived in the round that is going on,
and one that remembers the other sense arrived in the round before, which is over.

## Main definitions

* `Barrier.Phase` — how far a participant has come in its wait
* `Barrier.Crowd`, `Barrier.Crowd.step` — the barrier with its participants, and what one of them
  does next
* `Barrier.Rounds` — what is true of everybody while a number of rounds is over

## Main results

* `Barrier.Rounds.step` — whoever moves, the rounds are counted as before or one more is over
* `Barrier.participants_in_lockstep` — nobody is ahead, every round has one leader, and somebody can
  go on
-/

namespace SwarmVm

namespace Barrier

/-- How far a participant has come in its wait. -/
inductive Phase where
  /-- Between two waits. -/
  | away
  /-- It needs the lock to arrive. -/
  | entering
  /-- It has the lock and is about to arrive. -/
  | arriving
  /-- It was the last to arrive, has the lock, and is about to wake the others. -/
  | notifying
  /-- It has the lock and looks whether the sense that it found is still current. -/
  | checking (sense : Bool)
  /-- It sleeps and has given up the lock. -/
  | asleep (sense : Bool)
  /-- It was woken and needs the lock to go on. -/
  | waking (sense : Bool)
  /-- It has the lock and is about to return this answer. -/
  | leaving (led : Bool)
deriving DecidableEq, Repr

namespace Phase

/-- The participant has the lock. -/
def locked : Phase → Bool
  | .arriving | .notifying | .checking _ | .leaving _ => true
  | .away | .entering | .asleep _ | .waking _ => false

/-- The sense that a participant found, while it is held back by it. -/
def recorded? : Phase → Option Bool
  | .checking sense | .asleep sense | .waking sense => some sense
  | .away | .entering | .arriving | .notifying | .leaving _ => none

/-- Whoever sleeps is woken. -/
def notified : Phase → Phase
  | .asleep sense => .waking sense
  | phase => phase

end Phase

/-- The phase after arriving. -/
def Arrival.phase : Arrival → Phase
  | .leads => .notifying
  | .waits sense => .checking sense

/-- A barrier with its participants, and what they have done so far. -/
structure Crowd (n : Nat) where
  /-- The barrier. -/
  barrier : Barrier
  /-- How far everybody has come. -/
  phase : Fin n → Phase
  /-- How many waits everybody has entered. -/
  entered : Fin n → Nat
  /-- What the waits of everybody have returned, the first one first. -/
  returned : Fin n → List Bool
  /-- Who has arrived in a wait of this number, the first one first. -/
  arrivals : Nat → List (Fin n)

namespace Crowd

variable {n : Nat}

/-- Nobody has come yet. -/
def start (n : Nat) : Crowd n where
  barrier := make n
  phase _ := .away
  entered _ := 0
  returned _ := []
  arrivals _ := []

/-- Nobody has the lock. -/
def free (s : Crowd n) : Bool := decide (∀ t, (s.phase t).locked = false)

/-- A participant comes to another phase. -/
def go (s : Crowd n) (t : Fin n) (phase : Phase) : Crowd n :=
  { s with phase := Function.update s.phase t phase }

/-- A participant arrives. It is in the wait after those that have returned. -/
def arrive (s : Crowd n) (t : Fin n) : Crowd n :=
  let round := (s.returned t).length
  { s with
    barrier := s.barrier.arrive.2
    arrivals := Function.update s.arrivals round (s.arrivals round ++ [t]) }.go t
      s.barrier.arrive.1.phase

/-- What a participant does when it is its turn. Without the lock that it needs it stays where it
is, and out of its sleep it wakes for no reason. -/
def step (s : Crowd n) (t : Fin n) : Crowd n :=
  match s.phase t with
  | .away => { s with entered := Function.update s.entered t (s.entered t + 1) }.go t .entering
  | .entering => if s.free then s.go t .arriving else s
  | .arriving => s.arrive t
  | .notifying => { s with phase := fun u => (s.phase u).notified }.go t (.leaving true)
  | .checking sense => s.go t (if s.barrier.holds sense then .asleep sense else .leaving false)
  | .asleep sense => s.go t (.waking sense)
  | .waking sense => if s.free then s.go t (.checking sense) else s
  | .leaving led =>
    { s with returned := Function.update s.returned t (s.returned t ++ [led]) }.go t .away

/-- Everybody moves as a schedule says. -/
def run (s : Crowd n) (schedule : List (Fin n)) : Crowd n := schedule.foldl step s

end Crowd

/-! ### Counting rounds -/

/-- What a phase says about the rounds. -/
inductive Stage where
  /-- Not in a wait. -/
  | outside
  /-- In a wait, and not arrived yet. -/
  | coming
  /-- Arrived, and held back while the sense is this one. -/
  | held (sense : Bool)
  /-- The wait is over, with this answer. -/
  | going (led : Bool)

/-- The stage of a phase: taking the lock, sleeping and waking make no difference. -/
def Phase.stage : Phase → Stage
  | .away => .outside
  | .entering | .arriving => .coming
  | .checking sense | .asleep sense | .waking sense => .held sense
  | .notifying => .going true
  | .leaving led => .going led

@[simp] theorem Phase.stage_notified (p : Phase) : p.notified.stage = p.stage := by
  cases p <;> rfl

@[simp] theorem Phase.locked_notified (p : Phase) : p.notified.locked = p.locked := by
  cases p <;> rfl

theorem Phase.stage_of_recorded? {p : Phase} {sense : Bool} (h : p.recorded? = some sense) :
    p.stage = .held sense := by
  cases p <;> simp_all [recorded?, stage]

variable {n c : Nat} {s s' : Crowd n} {t u : Fin n}

namespace Crowd

@[simp] theorem go_phase_self (s : Crowd n) (t : Fin n) (p : Phase) : (s.go t p).phase t = p :=
  Function.update_self ..

@[simp] theorem go_phase_of_ne (s : Crowd n) (p : Phase) (h : u ≠ t) :
    (s.go t p).phase u = s.phase u :=
  Function.update_of_ne h ..

@[simp] theorem go_barrier (s : Crowd n) (t : Fin n) (p : Phase) :
    (s.go t p).barrier = s.barrier := rfl

@[simp] theorem go_entered (s : Crowd n) (t : Fin n) (p : Phase) :
    (s.go t p).entered = s.entered := rfl

@[simp] theorem go_returned (s : Crowd n) (t : Fin n) (p : Phase) :
    (s.go t p).returned = s.returned := rfl

@[simp] theorem go_arrivals (s : Crowd n) (t : Fin n) (p : Phase) :
    (s.go t p).arrivals = s.arrivals := rfl

/-- A participant was the last to arrive in a round. -/
def Led (s : Crowd n) (round : Nat) (t : Fin n) : Prop := (s.arrivals round).getLast? = some t

/-- What is true of a participant while `c` rounds are over. -/
def Fits (s : Crowd n) (c : Nat) (t : Fin n) : Prop :=
  match (s.phase t).stage with
  | .outside => s.entered t = c ∧ (s.returned t).length = c ∧ t ∉ s.arrivals c
  | .coming => s.entered t = c + 1 ∧ (s.returned t).length = c ∧ t ∉ s.arrivals c
  | .held sense => s.entered t = (s.returned t).length + 1
    ∧ ((s.returned t).length = c ∧ sense = s.barrier.sense ∧ t ∈ s.arrivals c
      ∨ (s.returned t).length + 1 = c ∧ sense = !s.barrier.sense ∧ t ∉ s.arrivals c
        ∧ ¬ s.Led (s.returned t).length t)
  | .going led => s.entered t = c ∧ (s.returned t).length + 1 = c ∧ t ∉ s.arrivals c
    ∧ (led = true ↔ s.Led (s.returned t).length t)

/-- The answers of a participant say in which rounds it was the last to arrive. -/
def Answers (s : Crowd n) (t : Fin n) : Prop :=
  ∀ round led, (s.returned t)[round]? = some led → (led = true ↔ s.Led round t)

theorem Fits.returned_le (h : s.Fits c t) : (s.returned t).length ≤ c := by
  unfold Fits at h
  split at h <;> omega

theorem Fits.le_entered (h : s.Fits c t) : c ≤ s.entered t := by
  unfold Fits at h
  split at h <;> omega

/-- Only a participant that is held back by the current sense has arrived in the round that is
going on. -/
theorem Fits.of_mem (h : s.Fits c t) (ht : t ∈ s.arrivals c) :
    (s.phase t).stage = .held s.barrier.sense ∧ s.entered t = c + 1
      ∧ (s.returned t).length = c := by
  unfold Fits at h
  split at h
  case h_1 => exact absurd ht h.2.2
  case h_2 => exact absurd ht h.2.2
  case h_4 => exact absurd ht h.2.2.1
  case h_3 sense hstage =>
    obtain ⟨hent, ⟨hlen, rfl, -⟩ | ⟨-, -, hnot, -⟩⟩ := h
    · exact ⟨hstage, hlen ▸ hent, hlen⟩
    · exact absurd ht hnot

theorem Fits.mem_of_held (h : s.Fits c t) (hstage : (s.phase t).stage = .held s.barrier.sense) :
    t ∈ s.arrivals c := by
  unfold Fits at h
  rw [hstage] at h
  obtain ⟨-, ⟨-, -, hmem⟩ | ⟨-, hsense, -⟩⟩ := h
  · exact hmem
  · simp at hsense

/-- What is true of a participant depends on its stage, its own counts and who has arrived. -/
theorem Fits.congr (h : s.Fits c t) (hstage : (s'.phase t).stage = (s.phase t).stage)
    (hent : s'.entered t = s.entered t) (hret : s'.returned t = s.returned t)
    (hsense : s'.barrier.sense = s.barrier.sense)
    (hmem : t ∈ s'.arrivals c ↔ t ∈ s.arrivals c)
    (hled : ∀ r < c, s'.arrivals r = s.arrivals r) : s'.Fits c t := by
  have hlast : (s.returned t).length + 1 = c →
      (s'.Led (s.returned t).length t ↔ s.Led (s.returned t).length t) := by
    intro hlen
    rw [Led, Led, hled _ (by omega)]
  unfold Fits at h ⊢
  rw [hstage, hent, hret, hsense, hmem]
  split at h
  · exact h
  · exact h
  · obtain ⟨hent, h | ⟨hlen, hother, hnot, hled⟩⟩ := h
    · exact ⟨hent, .inl h⟩
    · exact ⟨hent, .inr ⟨hlen, hother, hnot, (hlast hlen).not.2 hled⟩⟩
  · obtain ⟨hent, hlen, hnot, hled⟩ := h
    exact ⟨hent, hlen, hnot, hled.trans (hlast hlen).symm⟩

end Crowd

/-- What is true of everybody while `c` rounds are over. -/
structure Rounds (c : Nat) (s : Crowd n) : Prop where
  /-- Everybody has to arrive. -/
  participants : s.barrier.participants = n
  /-- The barrier counts those that have arrived in the round that is going on. -/
  arrived : s.barrier.arrived = (s.arrivals c).length
  /-- Somebody is missing. -/
  room : (s.arrivals c).length < n
  /-- Nobody arrives twice in a round. -/
  nodup : ∀ r, (s.arrivals r).Nodup
  /-- Everybody has arrived in the rounds that are over. -/
  complete : ∀ r < c, ∀ t, t ∈ s.arrivals r
  /-- Nobody has arrived in a later round. -/
  ahead : ∀ r, c < r → s.arrivals r = []
  /-- Everybody is where the rounds let them be. -/
  fits : ∀ t, s.Fits c t
  /-- Everybody was told whether they led. -/
  answers : ∀ t, s.Answers t

theorem rounds_start (hn : 1 ≤ n) : Rounds 0 (Crowd.start n) where
  participants := Nat.max_eq_left hn
  arrived := rfl
  room := hn
  nodup _ := List.nodup_nil
  complete r hr := absurd hr (Nat.not_lt_zero r)
  ahead _ _ := rfl
  fits _ := ⟨rfl, rfl, List.not_mem_nil⟩
  answers t round led h := by
    simp [Crowd.start] at h

/-- Everybody is in a list without repetition that is long enough. -/
theorem mem_of_nodup_of_length {l : List (Fin n)} (hl : l.Nodup) (hlen : l.length = n)
    (t : Fin n) : t ∈ l := by
  have huniv : l.toFinset = Finset.univ := by
    apply Finset.eq_univ_of_card
    rw [List.toFinset_card_of_nodup hl, hlen, Fintype.card_fin]
  exact List.mem_toFinset.1 (huniv ▸ Finset.mem_univ t)

namespace Rounds

/-- Somebody moves without touching the barrier. -/
theorem own (h : Rounds c s) (t : Fin n) (hb : s'.barrier = s.barrier)
    (ha : s'.arrivals = s.arrivals)
    (others : ∀ u, u ≠ t → (s'.phase u).stage = (s.phase u).stage
      ∧ s'.entered u = s.entered u ∧ s'.returned u = s.returned u)
    (fits : s'.Fits c t) (answers : s'.Answers t) : Rounds c s' where
  participants := by rw [hb, h.participants]
  arrived := by rw [hb, ha, h.arrived]
  room := by rw [ha]; exact h.room
  nodup := by rw [ha]; exact h.nodup
  complete := by rw [ha]; exact h.complete
  ahead := by rw [ha]; exact h.ahead
  fits u := by
    by_cases hu : u = t
    · rw [hu]; exact fits
    · obtain ⟨hstage, hent, hret⟩ := others u hu
      exact (h.fits u).congr hstage hent hret (by rw [hb]) (by rw [ha]) (by simp [ha])
  answers u := by
    by_cases hu : u = t
    · rw [hu]; exact answers
    · obtain ⟨-, -, hret⟩ := others u hu
      unfold Crowd.Answers Crowd.Led
      rw [hret, ha]
      exact h.answers u

/-- Nobody's stage changes. -/
theorem silent (h : Rounds c s) (t : Fin n) (hb : s'.barrier = s.barrier)
    (ha : s'.arrivals = s.arrivals) (he : s'.entered = s.entered) (hr : s'.returned = s.returned)
    (hs : ∀ u, (s'.phase u).stage = (s.phase u).stage) : Rounds c s' := by
  refine h.own t hb ha (fun u _ => ⟨hs u, by rw [he], by rw [hr]⟩) ?_ ?_
  · exact (h.fits t).congr (hs t) (by rw [he]) (by rw [hr]) (by rw [hb]) (by rw [ha]) (by simp [ha])
  · unfold Crowd.Answers Crowd.Led
    rw [hr, ha]
    exact h.answers t

theorem go (h : Rounds c s) {p : Phase} (hp : p.stage = (s.phase t).stage) :
    Rounds c (s.go t p) := by
  refine h.silent t rfl rfl rfl rfl fun u => ?_
  by_cases hu : u = t
  · rw [hu, Crowd.go_phase_self, hp]
  · rw [Crowd.go_phase_of_ne s p hu]

/-- Somebody enters a wait. -/
theorem enter (h : Rounds c s) (hp : s.phase t = .away) :
    Rounds c ({ s with entered := Function.update s.entered t (s.entered t + 1) }.go t
      .entering) := by
  have hfits := h.fits t
  simp only [Crowd.Fits, hp, Phase.stage] at hfits
  refine h.own t rfl rfl (fun u hu => ?_) ?_ (h.answers t)
  · simp [hu]
  · simpa [Crowd.Fits, Phase.stage] using hfits

/-- Somebody finds that the round is over. -/
theorem pass {sense : Bool} (h : Rounds c s) (hp : s.phase t = .checking sense)
    (hsense : s.barrier.holds sense = false) : Rounds c (s.go t (.leaving false)) := by
  have hne : s.barrier.sense ≠ sense := by simpa [holds] using hsense
  have hfits := h.fits t
  simp only [Crowd.Fits, hp, Phase.stage] at hfits
  refine h.own t rfl rfl (fun u hu => ?_) ?_ (h.answers t)
  · simp [hu]
  · obtain ⟨hent, ⟨-, heq, -⟩ | ⟨hlen, -, hmem, hled⟩⟩ := hfits
    · exact absurd heq.symm hne
    · simpa [Crowd.Fits, Phase.stage, Crowd.Led] using ⟨hent.trans hlen, hlen, hmem, hled⟩

/-- Somebody returns from a wait. -/
theorem leave {led : Bool} (h : Rounds c s) (hp : s.phase t = .leaving led) :
    Rounds c ({ s with returned := Function.update s.returned t (s.returned t ++ [led]) }.go t
      .away) := by
  have hfits := h.fits t
  simp only [Crowd.Fits, hp, Phase.stage] at hfits
  obtain ⟨hent, hlen, hmem, hled⟩ := hfits
  refine h.own t rfl rfl (fun u hu => ?_) ?_ ?_
  · simp [hu]
  · simpa [Crowd.Fits, Phase.stage] using ⟨hent, hlen, hmem⟩
  · intro round led' hround
    simp only [Crowd.go_returned, Function.update_self, List.getElem?_append] at hround
    split at hround
    · exact h.answers t round led' hround
    · rw [List.getElem?_singleton] at hround
      split at hround
      · next hge hzero =>
        cases hround
        rw [show round = (s.returned t).length by omega]
        exact hled
      · cases hround

/-- Somebody arrives and is not the last. -/
theorem wait (h : Rounds c s) (hp : s.phase t = .arriving)
    (hroom : (s.arrivals c).length + 1 < n) : Rounds c ({ s with
      barrier := ⟨n, (s.arrivals c).length + 1, s.barrier.sense⟩
      arrivals := Function.update s.arrivals c (s.arrivals c ++ [t]) }.go t
        (.checking s.barrier.sense)) := by
  have hfits := h.fits t
  simp only [Crowd.Fits, hp, Phase.stage] at hfits
  obtain ⟨hent, hlen, hmem⟩ := hfits
  have hother : ∀ r, r ≠ c →
      Function.update s.arrivals c (s.arrivals c ++ [t]) r = s.arrivals r := fun r hr =>
    Function.update_of_ne hr ..
  constructor
  · rfl
  · simp
  · simpa using hroom
  · intro r
    by_cases hr : r = c
    · simpa [hr] using (h.nodup c).concat hmem
    · simpa [hr] using h.nodup r
  · intro r hr u
    simpa [hr.ne] using h.complete r hr u
  · intro r hr
    simpa [hr.ne'] using h.ahead r hr
  · intro u
    by_cases hu : u = t
    · simp [Crowd.Fits, Phase.stage, hu, hent, hlen]
    · exact (h.fits u).congr (by simp [hu]) rfl rfl rfl (by simp [hu])
        fun r hr => hother r hr.ne
  · intro u round led hround
    have hlt : round < c := by
      have hlength := List.getElem?_eq_some_iff.1 hround
      exact hlength.1.trans_le (h.fits u).returned_le
    have hled := h.answers u round led hround
    simpa [Crowd.Led, hlt.ne] using hled

/-- Somebody arrives last, and the round is over. -/
theorem lead (h : Rounds c s) (hp : s.phase t = .arriving)
    (hlast : (s.arrivals c).length + 1 = n) : Rounds (c + 1) ({ s with
      barrier := ⟨n, 0, !s.barrier.sense⟩
      arrivals := Function.update s.arrivals c (s.arrivals c ++ [t]) }.go t .notifying) := by
  have hfits := h.fits t
  simp only [Crowd.Fits, hp, Phase.stage] at hfits
  obtain ⟨hent, hlen, hmem⟩ := hfits
  have hnodup : (s.arrivals c ++ [t]).Nodup := by simpa using (h.nodup c).concat hmem
  have hall : ∀ u, u ∈ s.arrivals c ++ [t] :=
    mem_of_nodup_of_length hnodup (by simpa using hlast)
  have hnext : s.arrivals (c + 1) = [] := h.ahead _ (Nat.lt_succ_self c)
  constructor
  · rfl
  · simp [hnext]
  · simp [hnext]
    omega
  · intro r
    by_cases hr : r = c
    · simpa [hr] using hnodup
    · simpa [hr] using h.nodup r
  · intro r hr u
    by_cases hrc : r = c
    · simpa [hrc] using hall u
    · simpa [hrc] using h.complete r (by omega) u
  · intro r hr
    have hrc : r ≠ c := by omega
    simpa [hrc] using h.ahead r (by omega)
  · intro u
    by_cases hu : u = t
    · simp [Crowd.Fits, Phase.stage, Crowd.Led, hu, hent, hlen, hnext]
    · -- Whoever else there is has arrived before and is held back by the sense that ends here.
      have hin : u ∈ s.arrivals c := by simpa [hu] using hall u
      obtain ⟨hstage, hent', hlen'⟩ := (h.fits u).of_mem hin
      simp [Crowd.Fits, Crowd.Led, hu, hstage, hent', hlen', hnext, Ne.symm hu]
  · intro u round led hround
    have hlt : round < c := by
      have hlength := List.getElem?_eq_some_iff.1 hround
      exact hlength.1.trans_le (h.fits u).returned_le
    have hled := h.answers u round led hround
    simpa [Crowd.Led, hlt.ne] using hled

theorem arrive (h : Rounds c s) (hp : s.phase t = .arriving) : ∃ c', Rounds c' (s.arrive t) := by
  have hfits := h.fits t
  simp only [Crowd.Fits, hp, Phase.stage] at hfits
  have hroom := h.room
  rw [Crowd.arrive, Barrier.arrive, h.participants, h.arrived, hfits.2.1]
  split_ifs with hlast
  · exact ⟨c + 1, h.lead hp hlast⟩
  · exact ⟨c, h.wait hp (by omega)⟩

/-- Whoever moves, the rounds are counted as before or one more is over. -/
theorem step (h : Rounds c s) (t : Fin n) : ∃ c', Rounds c' (s.step t) := by
  rw [Crowd.step]
  split
  case h_1 hp => exact ⟨c, h.enter hp⟩
  case h_2 hp =>
    split
    · exact ⟨c, h.go (by rw [hp]; rfl)⟩
    · exact ⟨c, h⟩
  case h_3 hp => exact h.arrive hp
  case h_4 hp =>
    have hwoken : Rounds c { s with phase := fun u => (s.phase u).notified } :=
      h.silent t rfl rfl rfl rfl fun u => Phase.stage_notified (s.phase u)
    exact ⟨c, hwoken.go (by rw [Phase.stage_notified, hp]; rfl)⟩
  case h_5 sense hp =>
    split
    · exact ⟨c, h.go (by rw [hp]; rfl)⟩
    · next hsense => exact ⟨c, h.pass hp (by simpa using hsense)⟩
  case h_6 sense hp => exact ⟨c, h.go (by rw [hp]; rfl)⟩
  case h_7 sense hp =>
    split
    · exact ⟨c, h.go (by rw [hp]; rfl)⟩
    · exact ⟨c, h⟩
  case h_8 led hp => exact ⟨c, h.leave hp⟩

theorem run (h : Rounds c s) (schedule : List (Fin n)) : ∃ c', Rounds c' (s.run schedule) := by
  induction schedule generalizing s c with
  | nil => exact ⟨c, h⟩
  | cons t schedule ih =>
    obtain ⟨c', h'⟩ := h.step t
    exact ih h'

end Rounds

/-! ### Mutual exclusion -/

namespace Crowd

/-- The lock belongs to one participant at a time. -/
def Exclusive (s : Crowd n) : Prop :=
  ∀ t u, (s.phase t).locked = true → (s.phase u).locked = true → t = u

/-- Who comes to a phase with the lock has had it, or nobody has. -/
theorem Exclusive.go (h : s.Exclusive) {p : Phase}
    (hp : p.locked = true → (s.phase t).locked = true ∨ s.free = true) :
    (s.go t p).Exclusive := by
  have hother : ∀ u, u ≠ t → p.locked = true → (s.phase u).locked = true → False := by
    intro u hu hlock hlock'
    rcases hp hlock with hown | hfree
    · exact hu (h u t hlock' hown)
    · simp [of_decide_eq_true hfree u] at hlock'
  intro u v hu hv
  by_cases hut : u = t <;> by_cases hvt : v = t
  · rw [hut, hvt]
  · subst hut
    rw [go_phase_self] at hu
    rw [go_phase_of_ne s p hvt] at hv
    exact (hother v hvt hu hv).elim
  · subst hvt
    rw [go_phase_self] at hv
    rw [go_phase_of_ne s p hut] at hu
    exact (hother u hut hv hu).elim
  · rw [go_phase_of_ne s p hut] at hu
    rw [go_phase_of_ne s p hvt] at hv
    exact h u v hu hv

theorem Exclusive.step (h : s.Exclusive) (t : Fin n) : (s.step t).Exclusive := by
  rw [Crowd.step]
  split
  case h_1 hp => exact Exclusive.go (s := { s with entered := _ }) h (by simp [Phase.locked])
  case h_2 hp =>
    split
    · next hfree => exact h.go fun _ => .inr hfree
    · exact h
  case h_3 hp =>
    exact Exclusive.go (s := { s with barrier := _, arrivals := _ }) h
      fun _ => .inl (by rw [hp]; rfl)
  case h_4 hp =>
    have hwoken : Exclusive { s with phase := fun u => (s.phase u).notified } := by
      intro u v hu hv
      exact h u v (by simpa using hu) (by simpa using hv)
    exact hwoken.go fun _ => .inl (by rw [Phase.locked_notified, hp]; rfl)
  case h_5 sense hp => exact h.go fun _ => .inl (by rw [hp]; rfl)
  case h_6 sense hp => exact h.go (by simp [Phase.locked])
  case h_7 sense hp =>
    split
    · next hfree => exact h.go fun _ => .inr hfree
    · exact h
  case h_8 led hp => exact Exclusive.go (s := { s with returned := _ }) h (by simp [Phase.locked])

theorem Exclusive.run (h : s.Exclusive) (schedule : List (Fin n)) :
    (s.run schedule).Exclusive := by
  induction schedule generalizing s with
  | nil => exact h
  | cons t schedule ih => exact ih (h.step t)

theorem exclusive_start (n : Nat) : (start n).Exclusive := by
  intro t u h
  simp [start, Phase.locked] at h

end Crowd

/-! ### What the barrier guarantees -/

/-- What a barrier guarantees to those that wait at it. -/
structure Lockstep (s : Crowd n) : Prop where
  /-- Two participants never have the lock at once. -/
  exclusive : s.Exclusive
  /-- When somebody has returned from a wait, everybody has entered it, and arrived in it once. -/
  together : ∀ r t, r < (s.returned t).length →
    (∀ u, r < s.entered u) ∧ (s.arrivals r).Perm (List.finRange n)
  /-- Of the waits of a round from which everybody has returned, the last to arrive was told that it
  led, and nobody else. -/
  leader : ∀ r, (∀ t, r < (s.returned t).length) → ∃ leader,
    (s.arrivals r).getLast? = some leader ∧ ∀ t, (s.returned t)[r]? = some (decide (t = leader))
  /-- Somebody is not held back. -/
  progress : ¬ ∀ t, ∃ sense, (s.phase t).recorded? = some sense ∧ s.barrier.holds sense = true

namespace Rounds

theorem perm_finRange (h : Rounds c s) {r : Nat} (hr : r < c) :
    (s.arrivals r).Perm (List.finRange n) :=
  (List.perm_ext_iff_of_nodup (h.nodup r) (List.nodup_finRange n)).2 fun t => by
    simp [h.complete r hr t]

theorem lt_of_returned (h : Rounds c s) {r : Nat} (hr : r < (s.returned t).length) : r < c :=
  hr.trans_le (h.fits t).returned_le

theorem exists_leader (h : Rounds c s) {r : Nat} (hr : ∀ t, r < (s.returned t).length) :
    ∃ leader, (s.arrivals r).getLast? = some leader
      ∧ ∀ t, (s.returned t)[r]? = some (decide (t = leader)) := by
  have hpos : 0 < n := Nat.zero_lt_of_lt h.room
  have hperm := h.perm_finRange (h.lt_of_returned (hr ⟨0, hpos⟩))
  have hne : s.arrivals r ≠ [] := by
    intro hnil
    have hlen := hperm.length_eq
    rw [hnil, List.length_nil, List.length_finRange] at hlen
    omega
  refine ⟨(s.arrivals r).getLast hne, List.getLast?_eq_getLast_of_ne_nil hne, fun t => ?_⟩
  have hget := List.getElem?_eq_getElem (hr t)
  have hled := h.answers t r _ hget
  rw [Crowd.Led, List.getLast?_eq_getLast_of_ne_nil hne, Option.some_inj, eq_comm (a := _) (b := t)]
    at hled
  rw [hget, Option.some_inj, Bool.eq_iff_iff, decide_eq_true_iff]
  exact hled

theorem not_all_held (h : Rounds c s) :
    ¬ ∀ t, ∃ sense, (s.phase t).recorded? = some sense ∧ s.barrier.holds sense = true := by
  intro hall
  have hmem : ∀ t, t ∈ s.arrivals c := by
    intro t
    obtain ⟨sense, hrec, hsense⟩ := hall t
    have hcurrent : s.barrier.sense = sense := of_decide_eq_true hsense
    exact (h.fits t).mem_of_held (hcurrent ▸ Phase.stage_of_recorded? hrec)
  have hlen : n ≤ (s.arrivals c).length := by
    calc n = (Finset.univ : Finset (Fin n)).card := by simp
      _ ≤ (s.arrivals c).toFinset.card :=
        Finset.card_le_card fun t _ => List.mem_toFinset.2 (hmem t)
      _ ≤ (s.arrivals c).length := List.toFinset_card_le _
  exact absurd h.room hlen.not_gt

end Rounds

/-- **The barrier keeps its participants in lockstep.** Whoever moves when, nobody returns from a
wait before everybody has entered it, one wait of every round returns true, that of the last to
arrive, and there is always somebody whom the barrier does not hold back. -/
theorem participants_in_lockstep (hn : 1 ≤ n) (schedule : List (Fin n)) :
    Lockstep ((Crowd.start n).run schedule) := by
  obtain ⟨c, h⟩ := (rounds_start hn).run schedule
  refine ⟨(Crowd.exclusive_start n).run schedule, fun r t hr => ?_, fun r hr => h.exists_leader hr,
    h.not_all_held⟩
  have hlt := h.lt_of_returned hr
  exact ⟨fun u => hlt.trans_le (h.fits u).le_entered, h.perm_finRange hlt⟩

/-- The first of two wakes too early and sleeps again, and the second is in its next wait before the
first has returned. -/
theorem two_in_lockstep :
    let s := (Crowd.start 2).run [0, 0, 0, 0, 0, 1, 0, 1, 0, 1, 1, 1, 1, 1, 1, 1, 1, 0, 0, 0]
    s.returned 0 = [false] ∧ s.returned 1 = [true] ∧ s.entered 1 = 2 ∧ Lockstep s :=
  ⟨by decide, by decide, by decide, participants_in_lockstep (by decide) _⟩

end Barrier

end SwarmVm
