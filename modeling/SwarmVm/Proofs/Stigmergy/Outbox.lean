import SwarmVm.Outbox
import SwarmVm.Proofs.Rings

/-!
# What is in the outbox

An outbox that takes a message writes it behind the newest, drops the oldest if it is full, and
exchanges two messages until the new one has its place. So the message is in it, and besides it only
what was there before.

All this needs that the two cursors are slots of the ring.

## Main results

* `Outbox.mem_append` — what an outbox holds once it has taken a message
-/

namespace SwarmVm

namespace Outbox

/-- Messages change places only. -/
theorem settle_spec (i : Nat) {q : Ring (Message Value)} (hq : q.Bounded) :
    (settle i q).Bounded ∧ ∀ x, x ∈ (settle i q).toList ↔ x ∈ q.toList := by
  induction i generalizing q with
  | zero => exact ⟨hq, fun _ => Iff.rfl⟩
  | succ i ih =>
    rw [settle]
    split
    · next before current hi hi' =>
      split
      · exact ⟨hq, fun _ => Iff.rfl⟩
      · obtain ⟨hb, hget⟩ := Ring.swap_spec hq (Ring.lt_size_of_get? hi) (Ring.lt_size_of_get? hi')
        obtain ⟨hb', hmem⟩ := ih hb
        refine ⟨hb', fun x => (hmem x).trans ?_⟩
        simp only [Ring.mem_toList, hget]
        exact ((Equiv.swap i (i + 1)).surjective.exists (p := fun k => q.get? k = some x)).symm
    · exact ⟨hq, fun _ => Iff.rfl⟩

/-- The message is in the outbox, and besides it only what was there before. -/
theorem mem_append {o : Outbox} (ho : o.queue.Bounded) (x : Message Value) :
    (o.append x).2.queue.Bounded ∧ x ∈ (o.append x).2.toList
      ∧ ∀ y ∈ (o.append x).2.toList, y = x ∨ y ∈ o.toList := by
  obtain ⟨hb, hx, hold⟩ := Ring.push_spec ho x
  obtain ⟨hb', hmem⟩ := settle_spec ((o.queue.push x).2.size - 1) hb
  exact ⟨hb', (hmem x).2 hx, fun y hy => hold y ((hmem y).1 hy)⟩

end Outbox

end SwarmVm
