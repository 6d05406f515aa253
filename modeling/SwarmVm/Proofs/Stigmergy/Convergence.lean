import Mathlib.Data.Prod.Lex
import SwarmVm.Proofs.Messages.RoundTrip
import SwarmVm.Proofs.Stigmergy.Exchange

/-!
# Replicas converge

Robots share a key. Each of them puts values under it, asks for it, and takes in what the others have
sent, in any order, as often as it likes or never. A message is sent when it is in the outbox of its
robot; it reaches another one as bytes, and is read back there.

Updates are ordered by their tag, the clock first and then the robot. As long as there are at most
fifty puts the clocks do not come round, and then taking in an update is keeping the one with the
greater tag (`Update.merge_eq`). So every robot holds the greatest of the updates that it has seen,
whatever the order was. A put takes a clock that is greater than all its robot has seen, so no two
puts have the same tag, and once every message has reached every other robot, all of them hold the
greatest update there is.

The updates that a robot has seen and the messages that have been sent are not part of any machine.
The network records them.

## Main definitions

* `Value.isFlat` — values that may be shared
* `Network`, `Network.Step`, `Network.Reachable` — robots that share a key
* `Update.IsLatest` — the greatest update of a set

## Main results

* `Wire.decode?_encode?` — a shared value is read back as it was
* `Network.Reachable.invariant` — what holds of every network that can be reached
* `Network.replicas_converge` — tags, replicas and their agreement
-/

namespace SwarmVm

/-! ### Messages on their way -/

/-- Values that may be shared: neither nil nor a table, a word of the embedder or a closure with a
captured record. -/
def Value.isFlat : Value → Bool
  | .int _ | .float _ | .string _ => true
  | .closure c => !c.isLambda
  | .nil | .table _ | .userdata _ => false

theorem Value.kind_ne_table_of_isFlat {v : Value} (hv : v.isFlat = true) : v.kind ≠ .table := by
  cases v <;> simp_all [Value.isFlat, Value.kind]

namespace Wire

/-- A shared value, or nil, is read back as it was. -/
theorem decode?_encode? {v : Value} (hv : v.isFlat = true ∨ v = .nil) (op : StigmergyOp)
    (robot : RobotId) (key : NameId) (clock : UInt8) :
    (encode? (.stigmergy op robot key v clock)).bind decode?
      = some (.stigmergy op robot key v clock) := by
  have hs : v.Sendable ∧ v.flat = v := by
    cases v with
    | closure c =>
      obtain ⟨target, captured⟩ := c
      simp_all [Value.isFlat, Value.Sendable, Value.kind, Value.flat, Closure.isLambda]
    | _ => simp_all [Value.isFlat, Value.Sendable, Value.kind, Value.flat]
  obtain ⟨bytes, he⟩ := Option.isSome_iff_exists.1 (isSome_encode?_iff.2
    (Message.sendable_stigmergy.2 hs.1))
  have hread := (reads_encode? he).decode []
  rw [List.append_nil, Message.flat, hs.2] at hread
  rw [he, Option.bind_some, hread]

end Wire

/-! ### Tags -/

namespace Update

variable {op : StigmergyOp} {full : Bool} {u here there : Update} {seen : Set Update}

/-- The tag of an update: its clock, and then the robot. -/
def tag (u : Update) : Nat ×ₗ Nat := toLex (u.clock.toNat, u.robot.toNat)

theorem tag_lt_iff : here.tag < there.tag ↔ here.clock.toNat < there.clock.toNat
    ∨ here.clock = there.clock ∧ here.robot.toNat < there.robot.toNat := by
  rw [tag, tag, Prod.Lex.toLex_lt_toLex, UInt8.toNat_inj]

theorem clock_le_of_tag_le (h : here.tag ≤ there.tag) : here.clock.toNat ≤ there.clock.toNat := by
  rw [tag, tag, Prod.Lex.toLex_le_toLex] at h
  exact h.elim le_of_lt fun he => he.1.le

/-- Before the clocks come round, the update with the greater tag is kept. -/
theorem merge_eq (hhere : here.clock.toNat ≤ 50) (hthere : there.clock.toNat ≤ 50) :
    merge op full (some here) there = some (if here.tag < there.tag then there else here) := by
  have hnewer : Clock.isNewer there.clock here.clock = true
      ↔ here.clock.toNat < there.clock.toNat := by
    rw [Clock.isNewer_iff]
    omega
  by_cases hlt : here.tag < there.tag
  · rw [if_pos hlt]
    rcases tag_lt_iff.1 hlt with hclock | ⟨hclock, hrobot⟩
    · exact merge_of_newer here there (hnewer.2 hclock)
    · exact merge_of_greater here there hclock.symm hrobot
  · rw [if_neg hlt]
    rw [tag_lt_iff] at hlt
    exact merge_of_not here there (fun h => hlt (.inl (hnewer.1 h)))
      fun h => hlt (.inr ⟨h.1.symm, h.2⟩)

/-- The update is the one with the greatest tag of those seen, and there is none exactly when none
was seen. -/
def IsLatest (seen : Set Update) : Option Update → Prop
  | none => seen = ∅
  | some u => u ∈ seen ∧ ∀ u' ∈ seen, u'.tag ≤ u.tag

theorem IsLatest.insert_of_lt {held : Option Update} (h : IsLatest seen held)
    (hlt : ∀ here, held = some here → here.tag < u.tag) : IsLatest (insert u seen) (some u) := by
  refine ⟨Set.mem_insert _ _, fun u' hu' => ?_⟩
  rcases hu' with rfl | hu'
  · exact le_rfl
  cases held with
  | none =>
    rw [IsLatest] at h
    rw [h] at hu'
    cases hu'
  | some here => exact (h.2 u' hu').trans (hlt here rfl).le

/-- Taking in an update keeps the latest. -/
theorem IsLatest.merge {held : Option Update} (h : IsLatest seen held) (hroom : held = none →
    full = false) (hdata : there.value ≠ .nil)
    (hhere : ∀ here, held = some here → here.clock.toNat ≤ 50) (hthere : there.clock.toNat ≤ 50) :
    IsLatest (insert there seen) (Update.merge op full held there) := by
  cases held with
  | none =>
    have hkeep : ¬ (full = true ∨ op = .query ∧ there.value = .nil) := by
      rintro (hfull | ⟨-, hnil⟩)
      · rw [hroom rfl] at hfull
        cases hfull
      · exact hdata hnil
    rw [Update.merge, if_neg hkeep]
    exact h.insert_of_lt fun _ he => absurd he (by simp)
  | some here =>
    rw [merge_eq (hhere here rfl) hthere]
    split
    · next hlt => exact h.insert_of_lt fun here' he => Option.some.inj he ▸ hlt
    · next hle =>
      refine ⟨Set.mem_insert_of_mem _ h.1, fun u' hu' => ?_⟩
      rcases hu' with rfl | hu'
      · exact not_lt.1 hle
      · exact h.2 u' hu'

theorem message_inj {op' : StigmergyOp} {key : NameId} {u' : Update} :
    u.message op key = u'.message op' key ↔ op = op' ∧ u = u' := by
  obtain ⟨robot, clock, value⟩ := u
  obtain ⟨robot', clock', value'⟩ := u'
  simp only [message, Message.stigmergy.injEq, Update.mk.injEq]
  tauto

end Update

/-! ### Robots that share a key -/

/-- A message about the key, with the robot that has sent it. -/
structure Envelope (ι : Type) where
  /-- The robot that has sent it. -/
  sender : ι
  /-- Whether it is an update or a query. -/
  op : StigmergyOp
  /-- What it carries. -/
  update : Update

/-- Robots, and a record of what they have done with the key. -/
structure Network (ι F : Type) where
  /-- The machine of each robot. -/
  robots : ι → Machine F
  /-- The messages sent so far. -/
  sent : Set (Envelope ι)
  /-- The puts made so far, oldest first, with the robot that made each. -/
  puts : List (ι × Update)
  /-- The messages that each robot has taken in. -/
  heard : ι → Set (Envelope ι)

namespace Network

variable {ι F : Type} {net net' : Network ι F} {key : NameId} {ids : ι → RobotId} {i j : ι}
  {m m' : Machine F} {u : Update} {x : Envelope ι}

/-- The messages about the key that a machine has in its outbox. -/
def outgoing (key : NameId) (i : ι) (m : Machine F) : Set (Envelope ι) :=
  {x | x.sender = i ∧ x.update.message x.op key ∈ m.outbox.toList}

/-- The updates that a robot has seen: its own puts, and those that messages have carried to it. -/
def seen (net : Network ι F) (i : ι) : Set Update :=
  {u | (i, u) ∈ net.puts} ∪ {u | u.value ≠ .nil ∧ ∃ x ∈ net.heard i, x.update = u}

section Steps

variable [DecidableEq ι]

/-- A robot has become `m`, and what it has in its outbox is sent. -/
def advance (net : Network ι F) (key : NameId) (i : ι) (m : Machine F) : Network ι F :=
  { net with robots := Function.update net.robots i m, sent := net.sent ∪ outgoing key i m }

/-- What the robots do. -/
inductive Step (key : NameId) (net : Network ι F) : Network ι F → Prop where
  /-- A robot puts a value under the key. The clock of the update is the one that the key has
  afterwards. -/
  | put (i : ι) (m' : Machine F) (v : Value)
      (arguments : (net.robots i).argument? 1 = some (.string key)
        ∧ (net.robots i).argument? 2 = some v)
      (flat : v.isFlat = true) (run : Machine.stigmergyPut (net.robots i) = .ok () m') :
      Step key net { net.advance key i m' with
        puts := net.puts ++ [(i, ⟨(net.robots i).robot, m'.clock key, v⟩)] }
  /-- A robot asks for the key. -/
  | get (i : ι) (m' : Machine F) (argument : (net.robots i).argument? 1 = some (.string key))
      (run : Machine.stigmergyGet (net.robots i) = .ok () m') :
      Step key net (net.advance key i m')
  /-- A robot takes in a message that was sent, as it is read from its bytes. The value is an object
  of the robot, and there is room for it. -/
  | receive (i : ι) (m' : Machine F) (call : Caller F) (x : Envelope ι) (mem : x ∈ net.sent)
      {op : StigmergyOp} {robot : RobotId} {k : NameId} {v : Value} {clock : UInt8}
      (read : (Wire.encode? (x.update.message x.op key)).bind Wire.decode?
        = some (.stigmergy op robot k v clock))
      {r : Ref} (object : (net.robots i).heap.isValid r = true ∧ (net.robots i).value r = v)
      (room : (net.robots i).replica? key = none → (net.robots i).stigmergy.isFull = false)
      (run : Machine.receiveStigmergy call op k ⟨robot, r, clock⟩ (net.robots i) = .ok () m') :
      Step key net { net.advance key i m' with
        heard := Function.update net.heard i (insert x (net.heard i)) }
  /-- A robot does something that does not concern the key. -/
  | other (i : ι) (m' : Machine F) (peer : m'.Peer (net.robots i).robot)
      (same : m'.replica? key = (net.robots i).replica? key)
      (silent : outgoing key i m' ⊆ outgoing key i (net.robots i)) :
      Step key net (net.advance key i m')

/-- The networks that robots with the given numbers can come to. In the beginning nobody holds
anything under the key or has a message about it. -/
inductive Reachable (ids : ι → RobotId) (key : NameId) : Network ι F → Prop where
  | start (robots : ι → Machine F) (peer : ∀ i, (robots i).Peer (ids i))
      (empty : ∀ i, (robots i).replica? key = none) (silent : ∀ i, outgoing key i (robots i) = ∅) :
      Reachable ids key ⟨robots, ∅, [], fun _ => ∅⟩
  | step {net net' : Network ι F} (reached : Reachable ids key net) (step : Step key net net') :
      Reachable ids key net'

end Steps

/-! ### What is sent -/

/-- The message carries a put, or it is the query of a robot that holds nothing. -/
def Genuine (puts : List (ι × Update)) (x : Envelope ι) : Prop :=
  (∃ i, (i, x.update) ∈ puts) ∨ x.op = .query ∧ x.update.clock = 0 ∧ x.update.value = .nil

/-- What holds of the messages. -/
structure Traffic (key : NameId) (net : Network ι F) : Prop where
  /-- All that were sent are genuine. -/
  genuine : ∀ x ∈ net.sent, Genuine net.puts x
  /-- What is taken in was sent. -/
  heard : ∀ i, net.heard i ⊆ net.sent
  /-- What is in an outbox is sent. -/
  outbox : ∀ i, outgoing key i (net.robots i) ⊆ net.sent

theorem Genuine.mono {puts puts' : List (ι × Update)} (hx : Genuine puts x)
    (hsub : puts ⊆ puts') : Genuine puts' x :=
  hx.imp_left fun ⟨i, hi⟩ => ⟨i, hsub hi⟩

/-- A robot sends what is genuine. -/
theorem Traffic.advance [DecidableEq ι] (tr : Traffic key net) {puts : List (ι × Update)}
    {heard : ι → Set (Envelope ι)} (hputs : net.puts ⊆ puts) (hheard : ∀ i, heard i ⊆ net.sent)
    (hsent : ∀ x ∈ outgoing key i m', x ∈ net.sent ∨ Genuine puts x) :
    Traffic key { net.advance key i m' with puts, heard } where
  genuine x hx := by
    rcases hx with hx | hx
    · exact (tr.genuine x hx).mono hputs
    · exact (hsent x hx).elim (fun hx => (tr.genuine x hx).mono hputs) id
  heard j x hx := .inl (hheard j hx)
  outbox j x hx := by
    by_cases hj : j = i
    · subst hj
      refine .inr ?_
      simpa [Network.advance] using hx
    · refine .inl (tr.outbox j ?_)
      simpa [Network.advance, hj] using hx

/-- A message that was not sent before is the one that is sent now. -/
theorem outgoing_of_emits {op : StigmergyOp} (em : Machine.Emits (u.message op key) m m')
    (hx : x ∈ outgoing key i m') : x ∈ outgoing key i m ∨ x.op = op ∧ x.update = u := by
  rcases em.old _ hx.2 with he | hold
  · exact .inr (Update.message_inj.1 he)
  · exact .inl ⟨hx.1, hold⟩

theorem outgoing_of_toList {op : StigmergyOp}
    (h : m.outbox.toList = [u.message op key]) : outgoing key i m = {⟨i, op, u⟩} := by
  ext ⟨sender, op', u'⟩
  simp only [outgoing, h, List.mem_singleton, Update.message_inj, Set.mem_ofPred_eq,
    Set.mem_singleton_iff, Envelope.mk.injEq]

/-! ### The invariant -/

/-- What holds of a network in which there have been at most fifty puts. -/
structure Invariant (ids : ι → RobotId) (key : NameId) (net : Network ι F) : Prop where
  /-- The robots keep their numbers. -/
  peer : ∀ i, (net.robots i).Peer (ids i)
  /-- A put was made by its robot, it has a clock that is no greater than the number of puts, and
  its update was sent. -/
  put : ∀ i u, (i, u) ∈ net.puts → u.robot = ids i
    ∧ (1 ≤ u.clock.toNat ∧ u.clock.toNat ≤ net.puts.length) ∧ u.value.isFlat = true
    ∧ (⟨i, .put, u⟩ : Envelope ι) ∈ net.sent
  /-- No two puts have the same tag. -/
  tags : (net.puts.map fun x => x.2.tag).Nodup
  /-- What is held is the latest that was seen. -/
  latest : ∀ i, Update.IsLatest (net.seen i) ((net.robots i).replica? key)
  /-- The messages are genuine. -/
  traffic : Traffic key net

namespace Invariant

/-- What a robot has seen are puts, whatever it takes in of what was sent. -/
theorem mem_puts_of_seen (inv : Invariant ids key net) {heard : ι → Set (Envelope ι)}
    (hheard : heard i ⊆ net.sent) (hu : u ∈ { net with heard := heard }.seen i) :
    ∃ j, (j, u) ∈ net.puts := by
  rcases hu with hu | ⟨hdata, x, hx, rfl⟩
  · exact ⟨i, hu⟩
  · rcases inv.traffic.genuine x (hheard hx) with hput | ⟨-, -, hnil⟩
    · exact hput
    · exact absurd hnil hdata

/-- So is what it holds. -/
theorem mem_puts_of_held (inv : Invariant ids key net)
    (hu : (net.robots i).replica? key = some u) : ∃ j, (j, u) ∈ net.puts := by
  have hl := inv.latest i
  rw [hu] at hl
  exact inv.mem_puts_of_seen (inv.traffic.heard i) hl.1

/-- What is held is no table. -/
theorem kind_ne_table (inv : Invariant ids key net) :
    ∀ u, (net.robots i).replica? key = some u → u.value.kind ≠ .table := by
  intro u hu
  obtain ⟨j, hj⟩ := inv.mem_puts_of_held hu
  exact Value.kind_ne_table_of_isFlat (inv.put j u hj).2.2.1

/-- The clock of a key is no greater than the number of puts. -/
theorem clock_le (inv : Invariant ids key net) :
    ((net.robots i).clock key).toNat ≤ net.puts.length := by
  rw [Machine.clock]
  cases hu : (net.robots i).replica? key with
  | none => exact Nat.zero_le _
  | some u =>
    obtain ⟨j, hj⟩ := inv.mem_puts_of_held hu
    exact (inv.put j u hj).2.1.2

end Invariant

/-- In the beginning nothing has happened. -/
theorem invariant_start {robots : ι → Machine F} (peer : ∀ i, (robots i).Peer (ids i))
    (empty : ∀ i, (robots i).replica? key = none)
    (silent : ∀ i, outgoing key i (robots i) = ∅) :
    Invariant ids key ⟨robots, ∅, [], fun _ => ∅⟩ where
  peer := peer
  put _ _ hu := absurd hu List.not_mem_nil
  tags := List.nodup_nil
  latest i := by
    rw [empty i]
    refine Set.eq_empty_iff_forall_notMem.2 fun u hu => ?_
    rcases hu with hu | ⟨-, x, hx, -⟩
    · exact absurd hu List.not_mem_nil
    · exact hx
  traffic := ⟨fun _ hx => hx.elim, fun _ _ hx => hx, fun i => by rw [silent i]⟩

/-- A put takes a tag that is greater than that of all its robot has seen. -/
theorem Invariant.tag_lt (inv : Invariant ids key net) (hputs : net.puts.length < 50)
    {u' : Update} (hu' : u' ∈ net.seen i) (hclock : u.clock = (net.robots i).clock key + 1) :
    u'.tag < u.tag := by
  have hle := inv.clock_le (i := i)
  have hnext : u.clock.toNat = ((net.robots i).clock key).toNat + 1 := by
    rw [hclock, UInt8.toNat_add, UInt8.toNat_one]
    omega
  have hl := inv.latest i
  rw [Machine.clock] at hnext
  cases hheld : (net.robots i).replica? key with
  | none =>
    rw [hheld, Update.IsLatest] at hl
    rw [hl] at hu'
    cases hu'
  | some here =>
    rw [hheld] at hl hnext
    have hclock' := Update.clock_le_of_tag_le (hl.2 u' hu')
    rw [Option.map_some, Option.getD_some] at hnext
    exact Update.tag_lt_iff.2 (.inl (by omega))

/-- No put has the tag of a new one: those of other robots have another robot in it, and those of the
same robot are among what it has seen. -/
theorem Invariant.tag_notMem (inv : Invariant ids key net) (hids : Function.Injective ids)
    (hputs : net.puts.length < 50) (hrobot : u.robot = ids i)
    (hclock : u.clock = (net.robots i).clock key + 1) :
    u.tag ∉ net.puts.map fun x => x.2.tag := by
  intro hmem
  obtain ⟨⟨j, u'⟩, hu', he⟩ := List.mem_map.1 hmem
  have hji : j = i := by
    have hrobots : u'.robot = u.robot :=
      UInt16.toNat_inj.1 (congrArg (fun t => (ofLex t).2) he)
    rw [(inv.put j u' hu').1, hrobot] at hrobots
    exact hids hrobots
  subst hji
  exact (inv.tag_lt hputs (.inl hu') hclock).ne he

/-- There is one latest put, since no two have the same tag. -/
theorem Invariant.latest_unique (inv : Invariant ids key net)
    {held held' : Option Update} (h : Update.IsLatest {u | ∃ j, (j, u) ∈ net.puts} held)
    (h' : Update.IsLatest {u | ∃ j, (j, u) ∈ net.puts} held') : held = held' := by
  have hinj : ∀ u u' : Update, (∃ j, (j, u) ∈ net.puts) → (∃ j, (j, u') ∈ net.puts) →
      u.tag = u'.tag → u = u' := by
    rintro u u' ⟨j, hj⟩ ⟨j', hj'⟩ he
    exact congrArg Prod.snd (List.inj_on_of_nodup_map inv.tags hj hj' he)
  cases held with
  | none =>
    cases held' with
    | none => rfl
    | some u' =>
      rw [Update.IsLatest] at h
      exact absurd h'.1 (h ▸ Set.notMem_empty _)
  | some u =>
    cases held' with
    | none =>
      rw [Update.IsLatest] at h'
      exact absurd h.1 (h' ▸ Set.notMem_empty _)
    | some u' => exact congrArg some (hinj u u' h.1 h'.1 ((h'.2 u h.1).antisymm (h.2 u' h'.1)))

/-- What is sent now is what is held. -/
theorem Invariant.sent_of_emits (inv : Invariant ids key net) {op : StigmergyOp}
    (em : Machine.Emits (u.message op key) (net.robots i) m')
    (hu : Genuine net.puts ⟨i, op, u⟩) :
    ∀ x ∈ outgoing key i m', x ∈ net.sent ∨ Genuine net.puts x := by
  intro x hx
  rcases outgoing_of_emits em hx with hold | ⟨rfl, rfl⟩
  · exact .inl (inv.traffic.outbox i hold)
  · exact .inr hu

variable [DecidableEq ι]

theorem Invariant.peer_advance (inv : Invariant ids key net) (peer : m'.Peer (ids i)) (j : ι) :
    ((net.advance key i m').robots j).Peer (ids j) := by
  by_cases hj : j = i
  · subst hj
    simpa [Network.advance] using peer
  · simpa [Network.advance, hj] using inv.peer j

/-- A robot does something that is no put. -/
theorem Invariant.advance (inv : Invariant ids key net) (peer : m'.Peer (ids i))
    {heard : ι → Set (Envelope ι)} (hheard : ∀ j, heard j ⊆ net.sent)
    (hothers : ∀ j ≠ i, heard j = net.heard j)
    (hlatest : Update.IsLatest ({ net with heard := heard }.seen i) (m'.replica? key))
    (hsent : ∀ x ∈ outgoing key i m', x ∈ net.sent ∨ Genuine net.puts x) :
    Invariant ids key { net.advance key i m' with heard } where
  peer := inv.peer_advance peer
  put j u hu := by
    obtain ⟨hr, hc, hf, hs⟩ := inv.put j u hu
    exact ⟨hr, hc, hf, .inl hs⟩
  tags := inv.tags
  latest j := by
    by_cases hj : j = i
    · subst hj
      simpa [Network.advance, seen] using hlatest
    · have hl := inv.latest j
      simpa [Network.advance, seen, hj, hothers j hj] using hl
  traffic := inv.traffic.advance (List.Subset.refl _) hheard hsent

theorem Invariant.get (inv : Invariant ids key net)
    (argument : (net.robots i).argument? 1 = some (.string key))
    (run : Machine.stigmergyGet (net.robots i) = .ok () m') :
    Invariant ids key (net.advance key i m') := by
  obtain ⟨peer, hu, em⟩ :=
    (Machine.ends_stigmergyGet (inv.peer i) argument inv.kind_ne_table).of_ok run
  refine inv.advance peer inv.traffic.heard (fun _ _ => rfl) (hu ▸ inv.latest i)
    (inv.sent_of_emits em ?_)
  cases hheld : (net.robots i).replica? key with
  | none => exact .inr ⟨rfl, rfl, rfl⟩
  | some u => exact .inl (inv.mem_puts_of_held hheld)

theorem Invariant.other (inv : Invariant ids key net) (peer : m'.Peer (net.robots i).robot)
    (same : m'.replica? key = (net.robots i).replica? key)
    (silent : outgoing key i m' ⊆ outgoing key i (net.robots i)) :
    Invariant ids key (net.advance key i m') := by
  rw [(inv.peer i).robot] at peer
  exact inv.advance peer inv.traffic.heard (fun _ _ => rfl) (same ▸ inv.latest i)
    fun x hx => .inl (inv.traffic.outbox i (silent hx))

theorem seen_insert (net : Network ι F) (i : ι) (x : Envelope ι) :
    { net with heard := Function.update net.heard i (insert x (net.heard i)) }.seen i
      = if x.update.value = .nil then net.seen i else insert x.update (net.seen i) := by
  ext u
  simp only [seen, Function.update_self, Set.mem_union, Set.mem_ofPred_eq, Set.exists_mem_insert]
  split <;> grind

/-- What is held after a message was taken in is the latest of what is seen then. -/
theorem Invariant.latest_merge (inv : Invariant ids key net) (hputs : net.puts.length ≤ 50)
    (hx : Genuine net.puts x)
    (room : (net.robots i).replica? key = none → (net.robots i).stigmergy.isFull = false) :
    Update.IsLatest
      ({ net with heard := Function.update net.heard i (insert x (net.heard i)) }.seen i)
      (Update.merge x.op (net.robots i).stigmergy.isFull ((net.robots i).replica? key)
        x.update) := by
  have hheld : ∀ here, (net.robots i).replica? key = some here →
      1 ≤ here.clock.toNat ∧ here.clock.toNat ≤ 50 := by
    intro here hhere
    obtain ⟨j, hj⟩ := inv.mem_puts_of_held hhere
    have := (inv.put j here hj).2.1
    omega
  have hl := inv.latest i
  rw [seen_insert]
  rcases hx with ⟨j, hj⟩ | ⟨hop, hclock, hnil⟩
  · obtain ⟨-, hbound, hflat, -⟩ := inv.put j x.update hj
    have hdata : x.update.value ≠ .nil := by
      intro hnil
      rw [hnil] at hflat
      cases hflat
    rw [if_neg hdata]
    exact hl.merge room hdata (fun here hhere => (hheld here hhere).2) (by omega)
  · rw [if_pos hnil]
    cases hhere : (net.robots i).replica? key with
    | none =>
      rw [hhere] at hl
      rw [Update.merge, if_pos (.inr ⟨hop, hnil⟩)]
      exact hl
    | some here =>
      rw [hhere] at hl
      have hbound := hheld here hhere
      have hzero : x.update.clock.toNat = 0 := by rw [hclock, UInt8.toNat_zero]
      rw [Update.merge_of_not here x.update]
      · exact hl
      · rw [Clock.isNewer_iff]
        omega
      · rintro ⟨he, -⟩
        rw [← he] at hbound
        omega

/-- A message is taken in. If it carries a put, one more is seen; otherwise it is the query of a robot
that holds nothing, and nothing changes. -/
theorem Invariant.receive (inv : Invariant ids key net) (hputs : net.puts.length ≤ 50)
    (call : Caller F) (mem : x ∈ net.sent)
    {op : StigmergyOp} {robot : RobotId} {k : NameId} {v : Value} {clock : UInt8}
    (read : (Wire.encode? (x.update.message x.op key)).bind Wire.decode?
      = some (.stigmergy op robot k v clock))
    {r : Ref} (object : (net.robots i).heap.isValid r = true ∧ (net.robots i).value r = v)
    (room : (net.robots i).replica? key = none → (net.robots i).stigmergy.isFull = false)
    (run : Machine.receiveStigmergy call op k ⟨robot, r, clock⟩ (net.robots i) = .ok () m') :
    Invariant ids key { net.advance key i m' with
      heard := Function.update net.heard i (insert x (net.heard i)) } := by
  have hx := inv.traffic.genuine x mem
  have hflat : x.update.value.isFlat = true ∨ x.update.value = .nil := by
    rcases hx with ⟨j, hj⟩ | ⟨-, -, hnil⟩
    · exact .inl (inv.put j _ hj).2.2.1
    · exact .inr hnil
  rw [Update.message, Wire.decode?_encode? hflat, Option.some.injEq, Message.stigmergy.injEq] at read
  obtain ⟨rfl, rfl, rfl, rfl, rfl⟩ := read
  obtain ⟨peer, hu, tells⟩ := ((inv.peer i).receiveStigmergy call object.1).of_ok run
  have hupdate : (net.robots i).update ⟨x.update.robot, r, x.update.clock⟩ = x.update := by
    rw [Machine.update, object.2]
  have hlatest := inv.latest_merge hputs hx room
  rw [← hupdate, ← hu] at hlatest
  have hheard : ∀ j, Function.update net.heard i (insert x (net.heard i)) j ⊆ net.sent := by
    intro j
    by_cases hj : j = i
    · subst hj
      rw [Function.update_self]
      exact Set.insert_subset mem (inv.traffic.heard j)
    · rw [Function.update_of_ne hj]
      exact inv.traffic.heard j
  refine inv.advance peer hheard (fun j hj => Function.update_of_ne hj _ _) hlatest ?_
  rcases tells with hout | ⟨op, u, hheld, em⟩
  · intro x hx
    exact .inl (inv.traffic.outbox i ⟨hx.1, hout ▸ hx.2⟩)
  · rw [hheld] at hlatest
    exact inv.sent_of_emits em (.inl (inv.mem_puts_of_seen (hheard i) hlatest.1))

/-- A put is made. -/
theorem Invariant.put_step (inv : Invariant ids key net) (hids : Function.Injective ids)
    (hputs : net.puts.length < 50) {v : Value}
    (arguments : (net.robots i).argument? 1 = some (.string key)
      ∧ (net.robots i).argument? 2 = some v)
    (flat : v.isFlat = true) (run : Machine.stigmergyPut (net.robots i) = .ok () m') :
    Invariant ids key { net.advance key i m' with
      puts := net.puts ++ [(i, ⟨(net.robots i).robot, m'.clock key, v⟩)] } := by
  obtain ⟨peer, hu, em⟩ := (Machine.ends_stigmergyPut (inv.peer i) arguments.1 arguments.2
    (Value.kind_ne_table_of_isFlat flat)).of_ok run
  have hclock' : m'.clock key = (net.robots i).clock key + 1 := by
    rw [Machine.clock, hu]
    rfl
  rw [hclock', (inv.peer i).robot]
  set u : Update := ⟨ids i, (net.robots i).clock key + 1, v⟩ with hdef
  have hle := inv.clock_le (i := i)
  have hnext : u.clock.toNat = ((net.robots i).clock key).toNat + 1 := by
    rw [hdef, UInt8.toNat_add, UInt8.toNat_one]
    omega
  have hseen : ∀ j, { net.advance key i m' with puts := net.puts ++ [(i, u)] }.seen j
      = if j = i then insert u (net.seen j) else net.seen j := by
    intro j
    ext u'
    simp only [seen, Network.advance, Set.mem_union, Set.mem_ofPred_eq, List.mem_append,
      List.mem_singleton, Prod.mk.injEq]
    split <;> grind
  refine ⟨inv.peer_advance peer, fun j u' hu' => ?_, ?_, fun j => ?_, ?_⟩
  · rw [List.length_append, List.length_singleton]
    rcases List.mem_append.1 hu' with hold | hnew
    · obtain ⟨hr, hc, hf, hs⟩ := inv.put j u' hold
      exact ⟨hr, ⟨hc.1, hc.2.trans (Nat.le_succ _)⟩, hf, .inl hs⟩
    · obtain ⟨rfl, rfl⟩ := Prod.mk.inj (List.mem_singleton.1 hnew)
      exact ⟨rfl, ⟨by omega, by omega⟩, flat, .inr ⟨rfl, em.mem⟩⟩
  · rw [List.map_append, List.nodup_append]
    refine ⟨inv.tags, List.nodup_singleton _, fun t ht t' ht' he => ?_⟩
    rw [List.map_singleton, List.mem_singleton] at ht'
    subst he ht'
    exact inv.tag_notMem hids hputs rfl rfl ht
  · rw [hseen]
    by_cases hj : j = i
    · subst hj
      rw [if_pos rfl]
      have hl := (inv.latest j).insert_of_lt (u := u) fun here hhere => by
        have hl := inv.latest j
        rw [hhere] at hl
        exact inv.tag_lt hputs hl.1 rfl
      simpa [Network.advance, hu] using hl
    · rw [if_neg hj]
      simpa [Network.advance, hj] using inv.latest j
  · refine inv.traffic.advance (List.subset_append_left _ _) inv.traffic.heard fun x hx => ?_
    rcases outgoing_of_emits em hx with hold | ⟨-, hnew⟩
    · exact .inl (inv.traffic.outbox i hold)
    · refine .inr (.inl ⟨i, ?_⟩)
      rw [hnew]
      exact List.mem_append_right _ (List.mem_singleton_self _)

/-! ### Every network -/

/-- No step takes a put back. -/
theorem Step.puts_le (h : Step key net net') : net.puts.length ≤ net'.puts.length := by
  cases h with
  | put => exact (List.length_append ▸ Nat.le_add_right _ _)
  | get => exact le_rfl
  | receive => exact le_rfl
  | other => exact le_rfl

/-- What holds of every network that can be reached. -/
theorem Reachable.invariant (hids : Function.Injective ids) (h : Reachable ids key net)
    (hputs : net.puts.length ≤ 50) : Invariant ids key net := by
  induction h with
  | start robots peer empty silent => exact invariant_start peer empty silent
  | step reached step ih =>
    have inv := ih (step.puts_le.trans hputs)
    cases step with
    | put i m' v arguments flat run =>
      rw [List.length_append, List.length_singleton] at hputs
      exact inv.put_step hids hputs arguments flat run
    | get i m' argument run => exact inv.get argument run
    | receive i m' call x mem read object room run =>
      exact inv.receive hputs call mem read object room run
    | other i m' peer same silent => exact inv.other peer same silent

/-- Once every message has reached every other robot, everybody has seen every put. -/
theorem Invariant.seen_eq (inv : Invariant ids key net)
    (hall : ∀ x ∈ net.sent, ∀ j ≠ x.sender, x ∈ net.heard j) :
    net.seen i = {u | ∃ j, (j, u) ∈ net.puts} := by
  ext u
  refine ⟨inv.mem_puts_of_seen (inv.traffic.heard i), fun ⟨j, hj⟩ => ?_⟩
  by_cases hij : i = j
  · subst hij
    exact .inl hj
  · obtain ⟨-, -, hflat, hsent⟩ := inv.put j u hj
    refine .inr ⟨?_, _, hall _ hsent i hij, rfl⟩
    intro hnil
    rw [hnil] at hflat
    cases hflat

/-- **Replicas converge.** Robots with different numbers share a key, and there are at most fifty puts.
No two puts have the same tag. What a robot holds is the latest of its own puts and of those that
messages have carried to it, which all are puts of some robot. Once every message has reached every
other robot, all of them hold the same. -/
theorem replicas_converge (hids : Function.Injective ids) (h : Reachable ids key net)
    (hputs : net.puts.length ≤ 50) :
    (net.puts.map fun x => x.2.tag).Nodup
      ∧ (∀ i, Update.IsLatest (net.seen i) ((net.robots i).replica? key))
      ∧ (∀ i, ∀ u ∈ net.seen i, ∃ j, (j, u) ∈ net.puts)
      ∧ ((∀ x ∈ net.sent, ∀ j ≠ x.sender, x ∈ net.heard j) →
        ∀ i j, (net.robots i).replica? key = (net.robots j).replica? key) := by
  have inv := h.invariant hids hputs
  refine ⟨inv.tags, inv.latest, fun i u => inv.mem_puts_of_seen (inv.traffic.heard i),
    fun hall i j => ?_⟩
  refine inv.latest_unique ?_ ?_
  · exact inv.seen_eq hall ▸ inv.latest i
  · exact inv.seen_eq hall ▸ inv.latest j

/-! ### Two robots -/

/-- The heap of a small machine in a call with two arguments, a string and a number. -/
def callHeap : Heap :=
  [.allocValue (.string 34), .allocValue (.int 7), .allocValue (.int 0), .arrayPush 1 4,
    .arrayPush 1 5].foldl Heap.Request.perform Machine.smallHeap

theorem callHeap_eq : callHeap
    = .laidOut (Machine.coreValues ++ [(.string 34, false), (.int 7, false), (.int 0, false)]) 91
      [[], [], [0, 4, 5]] := by
  rw [callHeap, Machine.smallHeap_eq]
  exact Heap.SameBytes.eq (by decide +kernel)

/-- A robot whose script has just called a function. -/
def calling (robot : RobotId) : Machine Empty :=
  { Machine.blank { heapSize := 192, robot } 0 1 2 3 callHeap with
    stack := { slots := #[6, 1, 6], capacity := 8, base := 3 }
    frameDepth := 1 }

theorem peer_blank {s : Settings} {nil record globals listeners : Ref} {heap : Heap}
    {stack : OperandStack} {frameDepth : Nat} (wf : heap.WellFormed) (tidy : heap.Tidy) :
    ({ Machine.blank s nil record globals listeners heap with stack, frameDepth } :
      Machine F).Peer s.robot :=
  ⟨⟨wf, tidy, fun e he => absurd he (Array.not_mem_empty e)⟩, Ring.bounded_make _, rfl, rfl, rfl⟩

theorem peer_calling (robot : RobotId) : (calling robot).Peer robot := by
  have hl : Machine.smallHeap.Supports [3, 2, 1, 0] :=
    (Machine.ends_coreObjects (by decide)).of_ok Machine.coreObjects_small
  have wf : callHeap.WellFormed ∧ callHeap.Tidy :=
    Heap.Request.wellFormed_foldl hl.wellFormed hl.tidy (by simp [Heap.Request.Allowed])
  exact peer_blank (s := { heapSize := 192, robot }) wf.1 wf.2

/-- The number that one robot puts. -/
def seven : Update := ⟨1, 1, .int 7⟩

/-- The robot that puts, -/
def author : Machine Empty := stateAfter Machine.stigmergyPut (calling 1)

/-- the one that takes the number in, -/
def reader : Machine Empty :=
  stateAfter (Machine.receiveStigmergy (fun _ _ => Machine.fail .type) .put 34 ⟨1, 5, 1⟩) (calling 2)

/-- and the first when its own update comes back to it. -/
def author' : Machine Empty :=
  stateAfter (Machine.receiveStigmergy (fun _ _ => Machine.fail .type) .put 34 ⟨1, 5, 1⟩) author

theorem runs_author :
    ((calling 1).argument? 1 = some (.string 34) ∧ (calling 1).argument? 2 = some (.int 7))
    ∧ answers Machine.stigmergyPut (calling 1) = true ∧ author.outbox.toList = [seven.message .put 34]
    ∧ author.heap.isValid 5 = true ∧ author.value 5 = .int 7
    ∧ author.stigmergy.isFull = false := by
  rw [author, calling, callHeap_eq]
  decide +kernel

theorem runs_reader :
    ((calling 2).heap.isValid 5 = true ∧ (calling 2).value 5 = .int 7)
    ∧ (calling 2).stigmergy.isFull = false
    ∧ answers (Machine.receiveStigmergy (fun _ _ => Machine.fail .type) .put 34 ⟨1, 5, 1⟩) (calling 2)
      = true ∧ reader.outbox.toList = [seven.message .put 34] := by
  rw [reader, calling, callHeap_eq]
  decide +kernel

theorem runs_author' :
    answers (Machine.receiveStigmergy (fun _ _ => Machine.fail .type) .put 34 ⟨1, 5, 1⟩) author = true
      ∧ author'.outbox.toList = [seven.message .put 34] := by
  rw [author', author, calling, callHeap_eq]
  decide +kernel

/-- The numbers of two robots. -/
def twoIds : Bool → RobotId
  | false => 1
  | true => 2

/-- Two robots, before either has done anything, -/
def before : Network Bool Empty := ⟨fun i => calling (twoIds i), ∅, [], fun _ => ∅⟩

/-- after one of them has put a number, -/
def told : Network Bool Empty :=
  { before.advance 34 false author with
    puts := before.puts ++ [(false, ⟨(before.robots false).robot, author.clock 34, .int 7⟩)] }

/-- after the other has taken it in, -/
def shared : Network Bool Empty :=
  { told.advance 34 true reader with
    heard := Function.update told.heard true (insert ⟨false, .put, seven⟩ (told.heard true)) }

/-- and after the first has heard of that. -/
def settled : Network Bool Empty :=
  { shared.advance 34 false author' with
    heard := Function.update shared.heard false (insert ⟨true, .put, seven⟩ (shared.heard false)) }

theorem replica?_calling (robot : RobotId) : (calling robot).replica? 34 = none := by
  rw [Machine.replica?_eq_none_iff, calling, Stigmergy.position?, Machine.blank]
  simp

theorem sent_told : told.sent = {⟨false, .put, seven⟩} := by
  rw [← outgoing_of_toList runs_author.2.2.1]
  exact Set.empty_union _

theorem sent_shared : shared.sent = {⟨false, .put, seven⟩, ⟨true, .put, seven⟩} := by
  rw [Set.insert_eq, ← sent_told, ← outgoing_of_toList runs_reader.2.2.2]
  rfl

theorem reachable_settled : Reachable twoIds 34 settled := by
  have hread : (Wire.encode? (seven.message .put 34)).bind Wire.decode?
      = some (.stigmergy .put 1 34 (.int 7) 1) := Wire.decode?_encode? (.inl rfl) ..
  have h₀ : Reachable twoIds 34 before := by
    refine .start _ (fun i => peer_calling _) (fun i => replica?_calling _) fun i => ?_
    rw [outgoing, show (calling (twoIds i)).outbox.toList = [] from Machine.inbox_toList_make _]
    simp
  have h₁ : Reachable twoIds 34 told :=
    h₀.step (.put false author (.int 7) runs_author.1 rfl (eq_ok_of_answers runs_author.2.1))
  have h₂ : Reachable twoIds 34 shared :=
    h₁.step (.receive true reader (fun _ _ => Machine.fail .type) ⟨false, .put, seven⟩
      (sent_told ▸ Set.mem_singleton _) hread runs_reader.1 (fun _ => runs_reader.2.1)
      (eq_ok_of_answers runs_reader.2.2.1))
  have hrobot : shared.robots false = author := by
    simp [shared, told, Network.advance]
  obtain ⟨-, -, -, hvalid, hvalue, hroom⟩ := runs_author
  rw [← hrobot] at hvalid hvalue hroom
  exact h₂.step (.receive false author' (fun _ _ => Machine.fail .type) ⟨true, .put, seven⟩
    (sent_shared ▸ Set.mem_insert_of_mem _ (Set.mem_singleton _)) hread ⟨hvalid, hvalue⟩
    (fun _ => hroom) (hrobot ▸ eq_ok_of_answers runs_author'.1))

theorem settled_converges : (∀ x ∈ settled.sent, ∀ j ≠ x.sender, x ∈ settled.heard j)
    ∧ (settled.robots false).replica? 34 = (settled.robots true).replica? 34 := by
  have hall : ∀ x ∈ settled.sent, ∀ j ≠ x.sender, x ∈ settled.heard j := by
    have hsent : settled.sent = {⟨false, .put, seven⟩, ⟨true, .put, seven⟩} := by
      rw [settled, Network.advance, outgoing_of_toList runs_author'.2, sent_shared]
      simp
    rw [hsent]
    rintro _ (rfl | rfl) j hj
    · obtain rfl : j = true := by simpa using hj
      exact .inl rfl
    · obtain rfl : j = false := by simpa using hj
      exact .inl rfl
  have hids : Function.Injective twoIds := by decide
  exact ⟨hall, (replicas_converge hids reachable_settled (by decide)).2.2.2 hall _ _⟩

end Network

end SwarmVm
