import Mathlib.Data.List.Perm.Basic
import SwarmVm.Proofs.Stigmergy.Outbox

/-!
# The outbox as a priority queue

The ring of an outbox is a list of bounded length, in which two neighbours can change places. So
moving a new message forward past the messages of later kinds inserts it in front of them.

To say that messages of one kind keep the order in which they came, every message is paired with
the number of messages that came before it. The pairs that wait are then strictly ordered, by kind
first and by number second, and together with the pairs that have left they are all that came.

## Main definitions

* `Outbox.Inserted` — a list with one more message, in the place that its kind gives it
* `Outbox.Request`, `Outbox.serveAll` — what is asked of an outbox, and what leaves it
* `Outbox.Precedes` — the order of sending, for messages with their numbers of arrival

## Main results

* `Outbox.holds_append` — what taking a message does to the messages that wait
* `Outbox.serves_in_order` — an outbox is a stable bounded priority queue
* `Outbox.drops_most_urgent` — a full outbox drops the most urgent message, which need not be the
  oldest
-/

namespace SwarmVm

theorem MessageKind.tag_injective : Function.Injective MessageKind.tag := by
  intro k l h
  cases k <;> cases l <;> first | rfl | cases h

namespace Outbox

variable {o : Outbox} {n : Nat} {m : Message Value} {ms rest : List (Message Value)}

/-! ### Taking a message -/

/-- One more message, behind those of the same or an earlier kind and before all others, and
nothing else changed. -/
def Inserted (m : Message Value) (old new : List (Message Value)) : Prop :=
  ∃ ahead behind, old = ahead ++ behind ∧ new = ahead ++ m :: behind
    ∧ (∀ x ∈ ahead, x.kind.tag ≤ m.kind.tag) ∧ ∀ x ∈ behind, m.kind.tag < x.kind.tag

/-- The messages are in the order of their kinds. -/
def Sorted (ms : List (Message Value)) : Prop := ms.Pairwise fun x y => x.kind.tag ≤ y.kind.tag

/-- A message moves forward until the one before it is of the same or an earlier kind. -/
theorem holds_settle (ahead : List (Message Value)) {q : Ring (Message Value)}
    {behind : List (Message Value)} (h : q.Holds n (ahead ++ m :: behind)) :
    ∃ before passed, ahead = before ++ passed
      ∧ (settle ahead.length q).Holds n (before ++ m :: (passed ++ behind))
      ∧ (∀ x ∈ before.getLast?, x.kind.tag ≤ m.kind.tag)
      ∧ ∀ x ∈ passed, m.kind.tag < x.kind.tag := by
  induction ahead using List.reverseRecOn generalizing q behind with
  | nil => exact ⟨[], [], rfl, h, by simp, by simp⟩
  | append_singleton ahead x ih =>
    rw [List.append_assoc, List.singleton_append] at h
    have hx : q.get? ahead.length = some x := by simp [h.get?]
    have hm : q.get? (ahead.length + 1) = some m := by simp [h.get?]
    rw [List.length_append, List.length_singleton, settle, hx, hm]
    dsimp only
    split
    · next hle => exact ⟨ahead ++ [x], [], by simp, by simpa using h, by simpa using hle, by simp⟩
    · next hgt =>
      obtain ⟨before, passed, rfl, hq, hlast, hpassed⟩ := ih h.swap_neighbours
      refine ⟨before, passed ++ [x], by simp, by simpa using hq, hlast, fun y hy => ?_⟩
      rcases List.mem_append.1 hy with hy | hy
      · exact hpassed y hy
      · rw [List.mem_singleton.1 hy]
        exact Nat.lt_of_not_le hgt

theorem Sorted.le_of_getLast? {k : Nat} (hs : Sorted ms)
    (hlast : ∀ x ∈ ms.getLast?, x.kind.tag ≤ k) : ∀ x ∈ ms, x.kind.tag ≤ k := by
  induction ms using List.reverseRecOn with
  | nil => simp
  | append_singleton ms y _ =>
    have hy : y.kind.tag ≤ k := hlast y (by simp)
    obtain ⟨-, -, hle⟩ := List.pairwise_append.1 hs
    intro x hx
    rcases List.mem_append.1 hx with hx | hx
    · exact (hle x hx y (List.mem_singleton_self y)).trans hy
    · rw [List.mem_singleton.1 hx]
      exact hy

/-- The newest message moves to the place that its kind gives it. -/
theorem holds_settle_newest {q : Ring (Message Value)} (h : q.Holds n (ms ++ [m]))
    (hs : Sorted ms) : ∃ ms', (settle (q.size - 1) q).Holds n ms' ∧ Inserted m ms ms' := by
  have hlast : q.size - 1 = ms.length := by
    rw [h.size, List.length_append, List.length_singleton, Nat.add_sub_cancel]
  obtain ⟨before, passed, rfl, hq, hbefore, hpassed⟩ := holds_settle ms h
  obtain ⟨hs', -, -⟩ := List.pairwise_append.1 hs
  rw [hlast]
  refine ⟨before ++ m :: passed, by simpa using hq, before, passed, rfl, rfl, ?_, hpassed⟩
  exact Sorted.le_of_getLast? hs' hbefore

/-- An outbox with room takes the message and drops nothing. -/
theorem holds_append (h : o.queue.Holds n ms) (hs : Sorted ms) (hroom : o.queue.isFull = false)
    (m : Message Value) : (o.append m).1 = none
      ∧ ∃ ms', (o.append m).2.queue.Holds n ms' ∧ Inserted m ms ms' := by
  have hpush : o.queue.push m = (none, o.queue.put m) := by
    rw [Ring.push, hroom]
    rfl
  rw [append, hpush]
  exact ⟨rfl, holds_settle_newest (h.put hroom m) hs⟩

/-- A full outbox drops its first message and then has room. -/
theorem append_of_isFull (h : o.queue.Holds n ms) (hfull : o.queue.isFull = true)
    (m : Message Value) : o.next.2.queue.isFull = false
      ∧ o.append m = (o.next.1, (o.next.2.append m).2) := by
  obtain ⟨-, -, -, -, -, hroom⟩ := h.pop_of_isFull hfull
  refine ⟨hroom, ?_⟩
  have hqueue : o.next.2.queue = o.queue.pop.2 := rfl
  rw [append, Ring.push, if_pos hfull, append, Ring.push, hqueue, hroom]
  rfl

/-! ### Requests -/

/-- What can be asked of an outbox. -/
inductive Request where
  /-- Take a message. -/
  | append (m : Message Value)
  /-- Give the next message away. -/
  | next
  /-- Drop every message. -/
  | clear

/-- The message that a request brings. -/
def Request.message? : Request → Option (Message Value)
  | .append m => some m
  | .next => none
  | .clear => none

/-- The messages that leave the outbox at a request, and the outbox after it. -/
def serve (o : Outbox) : Request → List (Message Value) × Outbox
  | .append m => ((o.append m).1.toList, (o.append m).2)
  | .next => (o.next.1.toList, o.next.2)
  | .clear => (o.toList, o.clear)

/-- The messages that leave the outbox at some requests, in this order, and the outbox after
them. -/
def serveAll (o : Outbox) : List Request → List (Message Value) × Outbox
  | [] => ([], o)
  | request :: requests =>
    let (gone, o) := o.serve request
    let (later, o) := o.serveAll requests
    (gone ++ later, o)

/-- The order of sending, for messages with their numbers of arrival: an earlier kind goes first,
and among messages of one kind the one that came first. -/
def Precedes (x y : Message Value × Nat) : Prop :=
  x.1.kind.tag < y.1.kind.tag ∨ x.1.kind = y.1.kind ∧ x.2 < y.2

/-- What becomes of the messages that came: with their numbers of arrival, some are gone and the
others wait in the order of sending. -/
structure Ledger (n : Nat) (arrived : List (Message Value))
    (gone waiting : List (Message Value × Nat)) (o : Outbox) : Prop where
  /-- Those that wait are in the ring. -/
  queue : o.queue.Holds n (waiting.map Prod.fst)
  /-- Every message that came is gone or waits, and there are no others. -/
  all : (gone ++ waiting).Perm arrived.zipIdx
  /-- They wait in the order of sending. -/
  ordered : waiting.Pairwise Precedes

namespace Ledger

variable {arrived : List (Message Value)} {gone waiting : List (Message Value × Nat)}

theorem sorted (h : Ledger n arrived gone waiting o) : Sorted (waiting.map Prod.fst) := by
  refine List.pairwise_map.2 (h.ordered.imp ?_)
  rintro x y (hlt | ⟨heq, -⟩)
  · exact hlt.le
  · exact (congrArg MessageKind.tag heq).le

theorem number_lt (h : Ledger n arrived gone waiting o) {x : Message Value × Nat}
    (hx : x ∈ waiting) : x.2 < arrived.length :=
  List.snd_lt_of_mem_zipIdx (h.all.subset (List.mem_append_right gone hx))

/-- The first message that waits goes. -/
theorem next (h : Ledger n arrived gone waiting o) : o.next.1 = (waiting.map Prod.fst).head?
    ∧ Ledger n arrived (gone ++ waiting.take 1) waiting.tail o.next.2 := by
  cases waiting with
  | nil =>
    have hpop : o.queue.pop = (none, o.queue) := h.queue.pop_nil
    rw [Outbox.next, hpop]
    exact ⟨rfl, by simpa using h⟩
  | cons x waiting =>
    obtain ⟨hx, hpop⟩ := h.queue.pop
    refine ⟨hx, hpop, ?_, h.ordered.of_cons⟩
    rw [List.take_succ_cons, List.take_zero, List.append_assoc, List.singleton_append]
    exact h.all

theorem toList_next (h : Ledger n arrived gone waiting o) :
    o.next.1.toList = (waiting.take 1).map Prod.fst := by
  rw [h.next.1, ← List.take_one, List.map_take]

/-- A message that comes has the next number and is put where its kind says. -/
theorem arrive (h : Ledger n arrived gone waiting o) {o' : Outbox} {ms' : List (Message Value)}
    (ho : o'.queue.Holds n ms') (hin : Inserted m (waiting.map Prod.fst) ms') :
    ∃ waiting', Ledger n (arrived ++ [m]) gone waiting' o' := by
  obtain ⟨ahead, behind, hold, rfl, hahead, hbehind⟩ := hin
  obtain ⟨before, after, rfl, rfl, rfl⟩ := List.map_eq_append_iff.1 hold
  have hfirst : ∀ x ∈ before, Precedes x (m, arrived.length) := by
    intro x hx
    have hnumber := h.number_lt (List.mem_append_left after hx)
    rcases (hahead x.1 (List.mem_map_of_mem hx)).lt_or_eq with hlt | heq
    · exact .inl hlt
    · exact .inr ⟨MessageKind.tag_injective heq, hnumber⟩
  have hlater : ∀ y ∈ after, Precedes (m, arrived.length) y := fun y hy =>
    .inl (hbehind y.1 (List.mem_map_of_mem hy))
  refine ⟨before ++ (m, arrived.length) :: after, by simpa using ho, ?_, ?_⟩
  · have hperm : (gone ++ (before ++ (m, arrived.length) :: after)).Perm
        ((gone ++ (before ++ after)) ++ [(m, arrived.length)]) := by
      rw [← List.append_assoc, ← List.append_assoc]
      exact List.perm_middle.trans (List.perm_append_singleton _ _).symm
    rw [List.zipIdx_append, List.zipIdx_singleton, Nat.zero_add]
    exact hperm.trans (h.all.append_right _)
  · obtain ⟨hbefore, hafter, hcross⟩ := List.pairwise_append.1 h.ordered
    refine List.pairwise_append.2 ⟨hbefore, List.pairwise_cons.2 ⟨hlater, hafter⟩, ?_⟩
    intro x hx y hy
    rcases List.mem_cons.1 hy with rfl | hy
    · exact hfirst x hx
    · exact hcross x hx y hy

/-- What one request does to the messages that are gone and to those that wait. -/
theorem serve (h : Ledger n arrived gone waiting o) (request : Request) :
    ∃ left waiting', (o.serve request).1 = left.map Prod.fst
      ∧ Ledger n (arrived ++ request.message?.toList) (gone ++ left) waiting'
        (o.serve request).2 := by
  cases request with
  | append m =>
    rw [Outbox.serve, show (Request.append m).message?.toList = [m] from rfl]
    cases hfull : o.queue.isFull with
    | false =>
      obtain ⟨hnone, ms', ho, hin⟩ := holds_append h.queue h.sorted hfull m
      obtain ⟨waiting', h'⟩ := h.arrive ho hin
      exact ⟨[], waiting', by rw [hnone]; rfl, by simpa using h'⟩
    | true =>
      obtain ⟨hroom, happend⟩ := append_of_isFull h.queue hfull m
      obtain ⟨-, hnext⟩ := h.next
      obtain ⟨-, ms', ho, hin⟩ := holds_append hnext.queue hnext.sorted hroom m
      obtain ⟨waiting', h'⟩ := hnext.arrive ho hin
      rw [happend]
      exact ⟨waiting.take 1, waiting', h.toList_next, h'⟩
  | next =>
    refine ⟨waiting.take 1, waiting.tail, h.toList_next, ?_⟩
    simpa [Request.message?, Outbox.serve] using h.next.2
  | clear =>
    refine ⟨waiting, [], h.queue.toList, h.queue.clear, ?_, List.Pairwise.nil⟩
    simpa [Request.message?] using h.all

/-- What some requests do, one after the other. -/
theorem serveAll (h : Ledger n arrived gone waiting o) (requests : List Request) :
    ∃ left waiting', (o.serveAll requests).1 = left.map Prod.fst
      ∧ Ledger n (arrived ++ requests.filterMap Request.message?) (gone ++ left) waiting'
        (o.serveAll requests).2 := by
  induction requests generalizing o arrived gone waiting with
  | nil => exact ⟨[], waiting, rfl, by simpa [Outbox.serveAll] using h⟩
  | cons request requests ih =>
    obtain ⟨left, waiting', hleft, h'⟩ := h.serve request
    obtain ⟨later, waiting'', hlater, h''⟩ := ih h'
    refine ⟨left ++ later, waiting'', ?_, ?_⟩
    · rw [Outbox.serveAll, List.map_append, ← hleft, ← hlater]
    · have hcame : request.message?.toList ++ requests.filterMap Request.message?
          = (request :: requests).filterMap Request.message? := by
        rw [List.filterMap_cons]
        cases request.message? <;> rfl
      rw [List.append_assoc, hcame, List.append_assoc] at h''
      exact h''

end Ledger

/-- What an outbox with room for `n - 1` messages does at the next request. -/
structure Queueing (n : Nat) (o : Outbox) : Prop where
  /-- The messages are counted, and one slot stays unused. -/
  size : o.size = o.toList.length ∧ o.toList.length ≤ n - 1
  /-- While there is room, a message is inserted and none is dropped. -/
  append : ∀ m, o.toList.length < n - 1 →
    (o.append m).1 = none ∧ Inserted m o.toList (o.append m).2.toList
  /-- Without room, the first message is dropped and answered, and the new one inserted among the
  others. -/
  append_full : ∀ m, o.toList.length = n - 1 → ∃ x rest, o.toList = x :: rest
    ∧ (o.append m).1 = some x ∧ Inserted m rest (o.append m).2.toList
  /-- The next message is the first, which is taken off. -/
  next : o.first? = o.toList.head? ∧ o.next.1 = o.toList.head? ∧ o.next.2.toList = o.toList.tail
  /-- Clearing leaves nothing. -/
  clear : o.clear.toList = []

theorem Ledger.queueing {arrived : List (Message Value)} {gone waiting : List (Message Value × Nat)}
    (h : Ledger n arrived gone waiting o) : Queueing n o := by
  have hlist : o.toList = waiting.map Prod.fst := h.queue.toList
  have htwo := h.queue.slots ▸ h.queue.bounded.slots
  have hlt := h.queue.length_lt
  have hfull := h.queue.isFull_iff
  rw [← hlist] at hlt hfull
  obtain ⟨hfirst, hnext⟩ := h.next
  have hrest : o.next.2.toList = waiting.tail.map Prod.fst := hnext.queue.toList
  refine ⟨⟨?_, ?_⟩, fun m hroom => ?_, fun m hall => ?_, ⟨?_, ?_, ?_⟩, h.queue.clear.toList⟩
  · exact hlist ▸ h.queue.size
  · omega
  · have hroom' : o.queue.isFull = false := by
      rw [Bool.eq_false_iff, Ne, hfull]
      omega
    obtain ⟨hnone, ms', ho, hin⟩ := holds_append h.queue h.sorted hroom' m
    rw [show (o.append m).2.toList = ms' from ho.toList, hlist]
    exact ⟨hnone, hin⟩
  · obtain ⟨hroom, happend⟩ := append_of_isFull h.queue (hfull.2 (by omega)) m
    obtain ⟨-, ms', ho, hin⟩ := holds_append hnext.queue hnext.sorted hroom m
    obtain ⟨x, rest, rfl⟩ : ∃ x rest, waiting = x :: rest := by
      refine List.exists_cons_of_length_pos ?_
      rw [hlist, List.length_map] at hall
      omega
    rw [happend, show (o.next.2.append m).2.toList = ms' from ho.toList, hlist]
    exact ⟨x.1, rest.map Prod.fst, rfl, hfirst, hin⟩
  · rw [Outbox.first?, h.queue.get?, hlist, List.head?_eq_getElem?]
  · rw [hfirst, hlist]
  · rw [hrest, hlist, List.map_tail]

theorem ledger_make (capacity : Nat) : Ledger (max capacity 2) [] [] [] (make capacity) :=
  ⟨Ring.holds_make capacity, List.Perm.refl _, List.Pairwise.nil⟩

/-- **An outbox is a stable bounded priority queue.** Whatever is asked of a new outbox, the
messages that came, each with its number of arrival, are those that have left and those that wait,
and they wait in the order of sending. -/
theorem serves_in_order (capacity : Nat) (requests : List Request) :
    let left := ((make capacity).serveAll requests).1
    let o := ((make capacity).serveAll requests).2
    (∃ gone waiting : List (Message Value × Nat),
      (gone ++ waiting).Perm (requests.filterMap Request.message?).zipIdx
        ∧ left = gone.map Prod.fst ∧ o.toList = waiting.map Prod.fst
        ∧ waiting.Pairwise Precedes)
      ∧ Queueing (max capacity 2) o := by
  intro left o
  obtain ⟨gone, waiting, hleft, h⟩ := (ledger_make capacity).serveAll requests
  exact ⟨⟨gone, waiting, h.all, hleft, h.queue.toList, h.ordered⟩, h.queueing⟩

/-! ### What a full outbox drops -/

/-- A message that waits, with its number of arrival, came before all of them. -/
def Oldest (x : Message Value × Nat) (waiting : List (Message Value × Nat)) : Prop :=
  ∀ y ∈ waiting, x.2 ≤ y.2

/-- No message that waits is of an earlier kind. -/
def MostUrgent (x : Message Value × Nat) (waiting : List (Message Value × Nat)) : Prop :=
  ∀ y ∈ waiting, x.1.kind.tag ≤ y.1.kind.tag

section First

variable {x : Message Value × Nat} {waiting : List (Message Value × Nat)}

theorem mostUrgent_of_ordered (h : (x :: waiting).Pairwise Precedes) :
    MostUrgent x (x :: waiting) := by
  intro y hy
  rcases List.mem_cons.1 hy with rfl | hy
  · exact le_rfl
  · rcases (List.pairwise_cons.1 h).1 y hy with hlt | ⟨heq, -⟩
    · exact hlt.le
    · rw [heq]

/-- The first in the order of sending is the oldest one if that is of the most urgent kind, and
only then. -/
theorem oldest_iff_of_ordered (h : (x :: waiting).Pairwise Precedes) :
    Oldest x (x :: waiting) ↔ ∃ y ∈ x :: waiting, Oldest y (x :: waiting)
      ∧ MostUrgent y (x :: waiting) := by
  constructor
  · intro hold
    exact ⟨x, List.mem_cons_self, hold, mostUrgent_of_ordered h⟩
  · rintro ⟨y, hy, hold, hurgent⟩
    rcases List.mem_cons.1 hy with rfl | hy
    · exact hold
    · have hnumber := hold x List.mem_cons_self
      have hkind := hurgent x List.mem_cons_self
      rcases (List.pairwise_cons.1 h).1 y hy with hlt | ⟨-, hlt⟩
      · exact absurd hlt hkind.not_gt
      · exact absurd hlt hnumber.not_gt

end First

/-- Only a full outbox drops a message, and that is the first one. -/
theorem Ledger.append_eq_some {arrived : List (Message Value)}
    {gone waiting : List (Message Value × Nat)} (h : Ledger n arrived gone waiting o)
    {lost : Message Value} (hlost : (o.append m).1 = some lost) :
    ∃ number rest, waiting = (lost, number) :: rest := by
  cases hfull : o.queue.isFull with
  | false =>
    obtain ⟨hnone, -⟩ := holds_append h.queue h.sorted hfull m
    rw [hnone] at hlost
    cases hlost
  | true =>
    obtain ⟨-, happend⟩ := append_of_isFull h.queue hfull m
    rw [happend, h.next.1] at hlost
    cases waiting with
    | nil => cases hlost
    | cons x rest =>
      cases hlost
      exact ⟨x.2, rest, rfl⟩

/-- **A full outbox drops the most urgent message.** Whatever was asked of a new outbox, the message
that it drops for another one waits first: no other is of an earlier kind, and it came before all
others of its kind. It came before all others that wait if the oldest of these is of the most urgent
kind, and only then. -/
theorem drops_most_urgent (capacity : Nat) (requests : List Request) (m lost : Message Value)
    (hlost : (((make capacity).serveAll requests).2.append m).1 = some lost) :
    let left := ((make capacity).serveAll requests).1
    let o := ((make capacity).serveAll requests).2
    ∃ (gone rest : List (Message Value × Nat)) (number : Nat),
      (gone ++ (lost, number) :: rest).Perm (requests.filterMap Request.message?).zipIdx
        ∧ left = gone.map Prod.fst ∧ o.toList = lost :: rest.map Prod.fst
        ∧ (∀ y ∈ rest, Precedes (lost, number) y)
        ∧ (Oldest (lost, number) ((lost, number) :: rest) ↔ ∃ y ∈ (lost, number) :: rest,
          Oldest y ((lost, number) :: rest) ∧ MostUrgent y ((lost, number) :: rest)) := by
  intro left o
  obtain ⟨gone, waiting, hleft, h⟩ := (ledger_make capacity).serveAll requests
  obtain ⟨number, rest, rfl⟩ := h.append_eq_some hlost
  exact ⟨gone, rest, number, h.all, hleft, h.queue.toList, (List.pairwise_cons.1 h.ordered).1,
    oldest_iff_of_ordered h.ordered⟩

theorem drops_most_urgent_broadcast :
    let o := ((make 3).serveAll [.append (.swarm .leave 1 0 1),
      .append (.broadcast 1 40 (.int 1))]).2
    ∃ (rest : List (Message Value × Nat)) (number : Nat),
      o.toList = .broadcast 1 40 (.int 1) :: rest.map Prod.fst
        ∧ ∀ y ∈ rest, Precedes (.broadcast 1 40 (.int 1), number) y := by
  intro o
  obtain ⟨_, rest, number, -, -, hlist, hfirst, -⟩ := drops_most_urgent 3
    [.append (.swarm .leave 1 0 1), .append (.broadcast 1 40 (.int 1))] (.broadcast 1 40 (.int 2))
    (.broadcast 1 40 (.int 1)) (by decide)
  exact ⟨rest, number, hlist, hfirst⟩

/-- With room for two, a broadcast pushes out the broadcast before it, and not the message about
swarms that came first. -/
theorem drops_younger :
    let requests := [.append (.swarm .leave 1 0 1), .append (.broadcast 1 40 (.int 1))]
    let later := Message.broadcast 1 40 (.int 2)
    ((make 3).serveAll requests).1 = []
      ∧ ((make 3).serveAll requests).2.toList = [.broadcast 1 40 (.int 1), .swarm .leave 1 0 1]
      ∧ (((make 3).serveAll requests).2.append later).1 = some (.broadcast 1 40 (.int 1)) := by
  decide

end Outbox

end SwarmVm
