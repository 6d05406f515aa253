import Mathlib.Data.List.Range
import Mathlib.Logic.Equiv.Basic
import Mathlib.Tactic.SplitIfs
import SwarmVm.Ring

/-!
# Rings as lists of bounded length

A ring is looked at in three ways. As a set of entries: writing behind the newest adds one, dropping
the oldest takes one away, exchanging two changes nothing. As a function from positions to entries:
every operation moves the positions in one way, wherever the cursors stand. And as a list, when
every position up to the size has an entry: writing behind the newest appends, dropping the oldest
takes the head off, and what is done to a position of the ring is done to that position of the list.

The first two need only that both cursors are slots of the ring. The third is kept by everything that
can be asked of a ring, so that a ring which has been used for any time, with its cursors anywhere,
is a first-in-first-out list with room for one entry less than it has slots.

## Main definitions

* `Ring.Bounded` — the cursors are slots, and there are at least two
* `Ring.Holds` — a ring of so many slots has exactly the entries of a list
* `Ring.Request`, `Ring.serveAll` — what is asked of a ring, and what it answers
* `Ring.Request.onList`, `Ring.answersOf` — the same for a list with room for so many entries
* `Ring.Shows` — everything that can be seen of a ring is as it is for a list

## Main results

* `Ring.Holds.serve` — one request, wherever the cursors stand
* `Ring.serves_as_list` — a ring is a bounded first-in-first-out list
-/

namespace SwarmVm

namespace Ring

variable {α : Type} {q r : Ring α} {n room : Nat} {a b : α} {as bs : List α} {i j k : Nat}

/-- The cursors are slots of the ring, which has at least two. -/
structure Bounded (r : Ring α) : Prop where
  /-- There is a slot besides the one that stays unused. -/
  slots : 2 ≤ r.slots.size
  /-- The oldest entry is in a slot. -/
  start : r.start < r.slots.size
  /-- The newest entry is followed by a slot. -/
  stop : r.stop < r.slots.size

theorem bounded_make (n : Nat) : (make n : Ring α).Bounded := by
  have hsize : (make n : Ring α).slots.size = max n 2 := Array.size_replicate
  refine ⟨?_, ?_, ?_⟩ <;> rw [hsize]
  · exact le_max_right n 2
  · exact (Nat.zero_lt_two).trans_le (le_max_right n 2)
  · exact (Nat.zero_lt_two).trans_le (le_max_right n 2)

theorem mem_toList : a ∈ r.toList ↔ ∃ i, r.get? i = some a := by
  rw [toList, List.mem_filterMap]
  refine ⟨fun ⟨i, _, hi⟩ => ⟨i, hi⟩, fun ⟨i, hi⟩ => ⟨i, List.mem_range.2 ?_, hi⟩⟩
  by_contra hlt
  rw [get?, if_neg hlt] at hi
  cases hi

/-! ### Cursors -/

/-- A position is at most one round ahead. -/
theorem wrap_eq (hi : i < 2 * r.slots.size) :
    r.wrap i = if i < r.slots.size then i else i - r.slots.size := by
  rw [wrap]
  split
  · next hlt => exact Nat.mod_eq_of_lt hlt
  · next hge => rw [Nat.mod_eq_sub_mod (by omega), Nat.mod_eq_of_lt (by omega)]

theorem size_eq (hr : r.Bounded) : r.size
    = if r.start ≤ r.stop then r.stop - r.start else r.stop + r.slots.size - r.start := by
  have := hr.start
  have := hr.stop
  rw [size]
  split
  · rw [Nat.mod_eq_sub_mod (by omega), Nat.mod_eq_of_lt (by omega)]
    omega
  · exact Nat.mod_eq_of_lt (by omega)

/-- One slot stays unused. -/
theorem size_lt (hr : r.Bounded) : r.size < r.slots.size := by
  have := hr.start
  have := hr.stop
  rw [size_eq hr]
  split <;> omega

theorem slot_eq (hr : r.Bounded) (hi : i ≤ r.size) : r.slot i
    = if r.start + i < r.slots.size then r.start + i else r.start + i - r.slots.size := by
  have := hr.start
  have := size_lt hr
  exact wrap_eq (by omega)

theorem slot_lt (hr : r.Bounded) (hi : i ≤ r.size) : r.slot i < r.slots.size := by
  have := hr.start
  have := size_lt hr
  rw [slot_eq hr hi]
  split <;> omega

theorem slot_inj (hr : r.Bounded) (hi : i ≤ r.size) (hj : j ≤ r.size) :
    r.slot i = r.slot j ↔ i = j := by
  have := hr.start
  have := size_lt hr
  rw [slot_eq hr hi, slot_eq hr hj]
  split_ifs <;> omega

/-- The slot behind the newest entry. -/
theorem slot_size (hr : r.Bounded) : r.slot r.size = r.stop := by
  have := hr.start
  have := hr.stop
  rw [slot_eq hr le_rfl, size_eq hr]
  split_ifs <;> omega

/-! ### Entries -/

theorem get?_of_lt (hi : i < r.size) : r.get? i = (r.slots[r.slot i]?).getD none := by
  rw [get?, if_pos hi, Array.getD_eq_getD_getElem?]

theorem lt_size_of_get? (hi : r.get? i = some a) : i < r.size := by
  by_contra hlt
  rw [get?, if_neg hlt] at hi
  cases hi

theorem isFull_iff (hr : r.Bounded) : r.isFull = true ↔ r.size + 1 = r.slots.size := by
  have := hr.slots
  have := hr.start
  have := hr.stop
  rw [isFull, decide_eq_true_eq, wrap_eq (by omega), size_eq hr]
  split_ifs <;> omega

/-- An entry is written behind the newest. -/
theorem put_spec (hr : r.Bounded) (hroom : r.isFull = false) (a : α) : (r.put a).Bounded
    ∧ (r.put a).size = r.size + 1
    ∧ ∀ i, (r.put a).get? i = if i = r.size then some a else r.get? i := by
  have hstart := hr.start
  have hstop := hr.stop
  have htwo := hr.slots
  have hslots : (r.put a).slots.size = r.slots.size := Array.size_setIfInBounds
  have hfull : ¬ r.size + 1 = r.slots.size := by
    rw [← isFull_iff hr, hroom]
    simp
  have hstop' : (r.put a).stop = if r.stop + 1 < r.slots.size then r.stop + 1 else 0 := by
    rw [show (r.put a).stop = r.wrap (r.stop + 1) from rfl, wrap_eq (by omega)]
    split_ifs <;> omega
  have hb : (r.put a).Bounded := by
    refine ⟨by omega, by rw [hslots]; exact hstart, ?_⟩
    rw [hslots, hstop']
    split <;> omega
  have hsize : (r.put a).size = r.size + 1 := by
    rw [size_eq hr] at hfull ⊢
    rw [size_eq hb, hslots, hstop', show (r.put a).start = r.start from rfl]
    split_ifs at hfull ⊢ <;> omega
  have hslot : ∀ i, (r.put a).slot i = r.slot i := by
    intro i
    rw [slot, wrap, hslots, slot, wrap, show (r.put a).start = r.start from rfl]
  refine ⟨hb, hsize, fun i => ?_⟩
  by_cases hi : i < r.size + 1
  · rw [get?_of_lt (hsize ▸ hi), hslot, put]
    simp only [Array.getElem?_setIfInBounds]
    by_cases he : i = r.size
    · rw [he, slot_size hr, if_pos rfl, if_pos hstop, if_pos rfl, Option.getD_some]
    · have hne : r.stop ≠ r.slot i := by
        rw [← slot_size hr]
        intro hs
        exact he ((slot_inj hr (by omega) le_rfl).1 hs.symm)
      rw [if_neg hne, if_neg he, get?_of_lt (by omega)]
  · rw [if_neg (by omega), get?, if_neg (by omega), get?, if_neg (by omega)]

/-- The oldest entry is dropped, and the others move up. -/
theorem pop_spec (hr : r.Bounded) (hne : 0 < r.size) : r.pop.2.Bounded
    ∧ r.pop.2.size + 1 = r.size ∧ r.pop.2.slots.size = r.slots.size
    ∧ ∀ i, r.pop.2.get? i = r.get? (i + 1) := by
  have hstart := hr.start
  have hstop := hr.stop
  have htwo := hr.slots
  have hlt := size_lt hr
  have hempty : r.isEmpty = false := by
    rw [isEmpty, decide_eq_false_iff_not]
    intro he
    rw [size_eq hr, he, if_pos le_rfl] at hne
    omega
  have hpop : r.pop.2 = { r with
      slots := r.slots.setIfInBounds r.start none, start := r.wrap (r.start + 1) } := by
    rw [pop, hempty]
    rfl
  have hslots : r.pop.2.slots.size = r.slots.size := by
    rw [hpop]
    exact Array.size_setIfInBounds
  have hstart' : r.pop.2.start = if r.start + 1 < r.slots.size then r.start + 1 else 0 := by
    rw [hpop, wrap_eq (by omega)]
    split_ifs
    · rfl
    · exact Nat.sub_eq_zero_of_le (by omega)
  have hstop' : r.pop.2.stop = r.stop := by rw [hpop]
  have hb : r.pop.2.Bounded := by
    refine ⟨by omega, ?_, by omega⟩
    rw [hslots, hstart']
    split <;> omega
  have hsize : r.pop.2.size + 1 = r.size := by
    rw [size_eq hr] at hne ⊢
    rw [size_eq hb, hslots, hstop', hstart']
    split_ifs at hne ⊢ <;> omega
  refine ⟨hb, hsize, hslots, fun i => ?_⟩
  by_cases hi : i + 1 < r.size
  · have hslot : r.pop.2.slot i = r.slot (i + 1) := by
      rw [slot_eq hb (by omega), slot_eq hr (by omega), hslots, hstart']
      split_ifs <;> omega
    have hne' : r.start ≠ r.slot (i + 1) := by
      rw [slot_eq hr (by omega)]
      split <;> omega
    rw [get?_of_lt (by omega), get?_of_lt hi, hslot, hpop]
    simp only [Array.getElem?_setIfInBounds]
    rw [if_neg hne']
  · rw [get?, if_neg (by omega), get?, if_neg (by omega)]

/-- An entry that is appended is in the ring, and besides it only what was there before. -/
theorem push_spec (hr : r.Bounded) (a : α) : (r.push a).2.Bounded ∧ a ∈ (r.push a).2.toList
    ∧ ∀ b ∈ (r.push a).2.toList, b = a ∨ b ∈ r.toList := by
  have key : ∀ q : Ring α, q.Bounded → q.isFull = false → (∀ b ∈ q.toList, b ∈ r.toList) →
      (q.put a).Bounded ∧ a ∈ (q.put a).toList ∧ ∀ b ∈ (q.put a).toList, b = a ∨ b ∈ r.toList := by
    intro q hq hroom hsub
    obtain ⟨hb, _, hget⟩ := put_spec hq hroom a
    refine ⟨hb, mem_toList.2 ⟨q.size, by rw [hget, if_pos rfl]⟩, fun b hmem => ?_⟩
    obtain ⟨i, hi⟩ := mem_toList.1 hmem
    rw [hget] at hi
    split at hi
    · exact .inl (Option.some.inj hi).symm
    · exact .inr (hsub b (mem_toList.2 ⟨i, hi⟩))
  rw [push]
  split
  · next hfull =>
    have hsize := (isFull_iff hr).1 hfull
    have htwo := hr.slots
    obtain ⟨hb, hsize', hslots, hget⟩ := pop_spec hr (by omega)
    refine key r.pop.2 hb ?_ fun b hmem => ?_
    · rw [Bool.eq_false_iff, Ne, isFull_iff hb]
      omega
    · obtain ⟨i, hi⟩ := mem_toList.1 hmem
      exact mem_toList.2 ⟨i + 1, by rw [← hget, hi]⟩
  · next hroom => exact key r hr (by simpa using hroom) fun _ => id

theorem toList_put (hr : r.Bounded) (hroom : r.isFull = false) (a : α) :
    (r.put a).toList = r.toList ++ [a] := by
  obtain ⟨-, hsize, hget⟩ := put_spec hr hroom a
  have hold : (List.range r.size).filterMap (r.put a).get? = r.toList := by
    refine List.filterMap_congr fun i hi => ?_
    rw [hget, if_neg (List.mem_range.1 hi).ne]
  rw [toList, hsize, List.range_succ, List.filterMap_append, hold]
  simp [hget]

theorem isEmpty_iff (hr : r.Bounded) : r.isEmpty = true ↔ r.size = 0 := by
  have hstart := hr.start
  have hstop := hr.stop
  rw [isEmpty, decide_eq_true_eq, size_eq hr]
  split <;> omega

/-- The oldest entry is taken off. -/
theorem toList_pop (hr : r.Bounded) : r.toList = r.pop.1.toList ++ r.pop.2.toList := by
  cases hempty : r.isEmpty with
  | true =>
    rw [pop, hempty]
    rfl
  | false =>
    have hne : 0 < r.size := by
      rw [Nat.pos_iff_ne_zero, Ne, ← isEmpty_iff hr, hempty]
      simp
    obtain ⟨-, hsize, -, hget⟩ := pop_spec hr hne
    have hslot : r.slot 0 = r.start := Nat.mod_eq_of_lt hr.start
    have hfirst : r.pop.1 = r.get? 0 := by
      rw [pop, hempty, get?, if_pos hne, hslot]
      rfl
    have hrest : (List.range r.pop.2.size).filterMap (r.get? ∘ Nat.succ) = r.pop.2.toList :=
      List.filterMap_congr fun i _ => (hget i).symm
    rw [toList, ← hsize, List.range_succ_eq_map, List.filterMap_cons, List.filterMap_map, hrest,
      hfirst]
    cases r.get? 0 with
    | none => rfl
    | some a => rfl

/-- A full ring loses its oldest entry to the new one. -/
theorem toList_push (hr : r.Bounded) (a : α) :
    r.toList ++ [a] = (r.push a).1.toList ++ (r.push a).2.toList := by
  rw [push]
  split
  · next hfull =>
    have hsize := (isFull_iff hr).1 hfull
    have htwo := hr.slots
    obtain ⟨hb, hsize', hslots, -⟩ := pop_spec hr (by omega)
    have hroom : r.pop.2.isFull = false := by
      rw [Bool.eq_false_iff, Ne, isFull_iff hb]
      omega
    rw [toList_pop hr, List.append_assoc, ← toList_put hb hroom a]
  · next hroom =>
    rw [← toList_put hr (by simpa using hroom) a]
    rfl

theorem bounded_pop (hr : r.Bounded) : r.pop.2.Bounded := by
  by_cases hne : 0 < r.size
  · exact (pop_spec hr hne).1
  · rw [pop, (isEmpty_iff hr).2 (by omega)]
    exact hr

/-! ### Changes that leave the cursors alone -/

/-- Two rings have equally many slots and their cursors in the same ones. -/
structure SameCursors (q r : Ring α) : Prop where
  /-- The number of slots. -/
  slots : q.slots.size = r.slots.size
  /-- The slot of the oldest entry. -/
  start : q.start = r.start
  /-- The slot behind the newest entry. -/
  stop : q.stop = r.stop

theorem SameCursors.bounded (h : q.SameCursors r) (hr : r.Bounded) : q.Bounded :=
  ⟨h.slots ▸ hr.slots, h.slots ▸ h.start ▸ hr.start, h.slots ▸ h.stop ▸ hr.stop⟩

theorem SameCursors.size (h : q.SameCursors r) : q.size = r.size := by
  rw [Ring.size, h.slots, h.start, h.stop, Ring.size]

theorem SameCursors.slot (h : q.SameCursors r) (i : Nat) : q.slot i = r.slot i := by
  rw [Ring.slot, wrap, h.slots, h.start, Ring.slot, wrap]

theorem sameCursors_swap (r : Ring α) (i j : Nat) : (r.swap i j).SameCursors r := by
  rw [swap]
  split
  · exact ⟨Array.size_swapIfInBounds, rfl, rfl⟩
  · exact ⟨rfl, rfl, rfl⟩

theorem sameCursors_modify (r : Ring α) (i : Nat) (f : α → α) :
    (r.modify i f).SameCursors r := by
  rw [modify]
  split
  · exact ⟨Array.size_modify, rfl, rfl⟩
  · exact ⟨rfl, rfl, rfl⟩

/-- Two entries change places. -/
theorem swap_spec (hr : r.Bounded) (hi : i < r.size) (hj : j < r.size) : (r.swap i j).Bounded
    ∧ ∀ k, (r.swap i j).get? k = r.get? (Equiv.swap i j k) := by
  have hsi := slot_lt hr hi.le
  have hsj := slot_lt hr hj.le
  have hswap : r.swap i j = { r with slots := r.slots.swap (r.slot i) (r.slot j) } := by
    rw [swap, if_pos ⟨hi, hj⟩, Array.swapIfInBounds, dif_pos hsi, dif_pos hsj]
  have hsame := sameCursors_swap r i j
  have hsize := hsame.size
  refine ⟨hsame.bounded hr, fun k => ?_⟩
  rw [Equiv.swap_apply_def]
  by_cases hk : k < r.size
  · have ei : r.slot i = r.slot k ↔ k = i := (slot_inj hr hi.le hk.le).trans eq_comm
    have ej : r.slot j = r.slot k ↔ k = j := (slot_inj hr hj.le hk.le).trans eq_comm
    rw [get?_of_lt (hsize ▸ hk), hsame.slot, hswap]
    simp only [Array.getElem?_swap, ei, ej, ← Array.getElem?_eq_getElem hsi,
      ← Array.getElem?_eq_getElem hsj]
    split_ifs with hkj hki hki
    · rw [← hkj, hki, get?_of_lt hi]
    · rw [get?_of_lt hi]
    · rw [get?_of_lt hj]
    · rw [get?_of_lt hk]
  · rw [get?, if_neg (by omega), if_neg (by omega), if_neg (by omega), get?, if_neg hk]

/-- One entry is changed, and a position past the end names none. -/
theorem modify_spec (hr : r.Bounded) (i : Nat) (f : α → α) : (r.modify i f).Bounded
    ∧ ∀ k, (r.modify i f).get? k = if k = i then (r.get? k).map f else r.get? k := by
  have hsame := sameCursors_modify r i f
  have hsize := hsame.size
  refine ⟨hsame.bounded hr, fun k => ?_⟩
  by_cases hk : k < r.size
  · rw [get?_of_lt (hsize ▸ hk), hsame.slot, get?_of_lt hk, modify]
    split_ifs with hi hki hki
    · have hslot : r.slot i = r.slot k := by rw [hki]
      rw [Array.getElem?_modify, if_pos hslot]
      cases r.slots[r.slot k]? with
      | none => rfl
      | some entry => rfl
    · have hslot : r.slot i ≠ r.slot k := fun h => hki ((slot_inj hr hi.le hk.le).1 h).symm
      rw [Array.getElem?_modify, if_neg hslot]
    · exact absurd (hki ▸ hk) hi
    · rfl
  · rw [get?, if_neg (by omega), get?, if_neg hk]
    split_ifs <;> rfl

/-! ### The list of the entries -/

/-- A ring of `n` slots has exactly the entries of a list, the oldest first. -/
structure Holds (r : Ring α) (n : Nat) (as : List α) : Prop where
  /-- The cursors are slots. -/
  bounded : r.Bounded
  /-- The number of slots. -/
  slots : r.slots.size = n
  /-- There are as many entries as the list has. -/
  size : r.size = as.length
  /-- The entries are those of the list. -/
  get? : ∀ i, r.get? i = as[i]?

theorem filterMap_getElem?_range (as : List α) :
    (List.range as.length).filterMap (as[·]?) = as := by
  induction as with
  | nil => rfl
  | cons a as ih => simp [List.range_succ_eq_map, List.filterMap_map, ih]

theorem Holds.toList (h : r.Holds n as) : r.toList = as := by
  rw [Ring.toList, h.size, show r.get? = (as[·]?) from funext h.get?]
  exact filterMap_getElem?_range as

/-- One slot stays unused. -/
theorem Holds.length_lt (h : r.Holds n as) : as.length < n := by
  rw [← h.size, ← h.slots]
  exact size_lt h.bounded

theorem Holds.isFull_iff (h : r.Holds n as) : r.isFull = true ↔ as.length + 1 = n := by
  rw [Ring.isFull_iff h.bounded, h.size, h.slots]

theorem holds_nil (hr : r.Bounded) (hs : r.slots.size = n) (h : r.start = r.stop) :
    r.Holds n [] := by
  have hsize : r.size = 0 := by
    rw [size_eq hr, if_pos h.le, h, Nat.sub_self]
  refine ⟨hr, hs, hsize, fun i => ?_⟩
  rw [Ring.get?, if_neg (by omega), List.getElem?_nil]

theorem holds_make (capacity : Nat) : (make capacity : Ring α).Holds (max capacity 2) [] :=
  holds_nil (bounded_make capacity) Array.size_replicate rfl

theorem Holds.clear (h : r.Holds n as) : r.clear.Holds n [] := by
  have hslots : r.clear.slots.size = r.slots.size := Array.size_replicate
  have hpos : 0 < r.clear.slots.size := by
    have := h.bounded.slots
    omega
  exact holds_nil ⟨hslots ▸ h.bounded.slots, hpos, hpos⟩ (hslots.trans h.slots) rfl

theorem Holds.put (h : r.Holds n as) (hroom : r.isFull = false) (a : α) :
    (r.put a).Holds n (as ++ [a]) := by
  obtain ⟨hb, hsize, hget⟩ := put_spec h.bounded hroom a
  have hslots : (r.put a).slots.size = r.slots.size := Array.size_setIfInBounds
  refine ⟨hb, hslots.trans h.slots, ?_, fun i => ?_⟩
  · rw [hsize, h.size, List.length_append, List.length_singleton]
  · rw [hget, h.get?, h.size, List.getElem?_append]
    split_ifs with he hlt hlt
    · omega
    · rw [he, Nat.sub_self, List.getElem?_cons_zero]
    · rfl
    · rw [List.getElem?_eq_none (by omega), List.getElem?_eq_none]
      rw [List.length_singleton]
      omega

theorem Holds.pop (h : r.Holds n (a :: as)) : r.pop.1 = some a ∧ r.pop.2.Holds n as := by
  have hpos : 0 < r.size := by
    rw [h.size, List.length_cons]
    exact Nat.succ_pos _
  obtain ⟨hb, hsize, hslots, hget⟩ := pop_spec h.bounded hpos
  have hrest : r.pop.2.Holds n as := by
    refine ⟨hb, hslots.trans h.slots, ?_, fun i => ?_⟩
    · have hlen := h.size
      rw [List.length_cons] at hlen
      omega
    · rw [hget, h.get?, List.getElem?_cons_succ]
  refine ⟨?_, hrest⟩
  have hlist := toList_pop h.bounded
  rw [h.toList, hrest.toList] at hlist
  cases hfirst : r.pop.1 with
  | none => simp [hfirst] at hlist
  | some b => simpa [hfirst, eq_comm] using hlist

theorem Holds.pop_nil (h : r.Holds n []) : r.pop = (none, r) := by
  rw [Ring.pop, (isEmpty_iff h.bounded).2 h.size]
  rfl

/-- A full ring has an oldest entry, and there is room without it. -/
theorem Holds.pop_of_isFull (h : r.Holds n as) (hfull : r.isFull = true) :
    ∃ a rest, as = a :: rest ∧ r.pop.1 = some a ∧ r.pop.2.Holds n rest
      ∧ r.pop.2.isFull = false := by
  have hlen := h.isFull_iff.1 hfull
  have htwo := h.slots ▸ h.bounded.slots
  obtain ⟨a, rest, rfl⟩ := List.exists_cons_of_length_pos (by omega : 0 < as.length)
  obtain ⟨ha, hpop⟩ := h.pop
  refine ⟨a, rest, rfl, ha, hpop, ?_⟩
  rw [List.length_cons] at hlen
  rw [Bool.eq_false_iff, Ne, hpop.isFull_iff]
  omega

/-- An entry is appended, and a full ring drops its oldest one. -/
theorem Holds.push (h : r.Holds n as) (a : α) :
    (r.push a).1 = (if as.length + 1 = n then as.head? else none)
      ∧ (r.push a).2.Holds n ((as ++ [a]).drop (r.push a).1.toList.length) := by
  rw [Ring.push]
  split
  · next hfull =>
    rw [if_pos (h.isFull_iff.1 hfull)]
    obtain ⟨x, rest, rfl, hx, hpop, hroom⟩ := h.pop_of_isFull hfull
    refine ⟨hx, ?_⟩
    rw [show r.pop.1.toList.length = 1 by rw [hx]; rfl]
    exact hpop.put hroom a
  · next hroom =>
    rw [if_neg fun hlen => hroom (h.isFull_iff.2 hlen)]
    exact ⟨rfl, h.put (by simpa using hroom) a⟩

/-- A list with two of its elements exchanged; positions past the end are ignored. -/
def exchange (as : List α) (i j : Nat) : List α :=
  match as[i]?, as[j]? with
  | some a, some b => (as.set i b).set j a
  | _, _ => as

theorem exchange_eq (hi : i < as.length) (hj : j < as.length) :
    exchange as i j = (as.set i as[j]).set j as[i] := by
  rw [exchange, List.getElem?_eq_getElem hi, List.getElem?_eq_getElem hj]

theorem exchange_of_not_lt (h : ¬ (i < as.length ∧ j < as.length)) : exchange as i j = as := by
  rw [exchange]
  split
  · next hi hj =>
    exact absurd ⟨(List.getElem?_eq_some_iff.1 hi).1, (List.getElem?_eq_some_iff.1 hj).1⟩ h
  · rfl

theorem getElem?_exchange (hi : i < as.length) (hj : j < as.length) (k : Nat) :
    (exchange as i j)[k]? = as[Equiv.swap i j k]? := by
  rw [exchange_eq hi hj, List.getElem?_set, List.getElem?_set, List.length_set]
  rcases eq_or_ne k j with rfl | hkj
  · rw [if_pos rfl, if_pos hj, Equiv.swap_apply_right, List.getElem?_eq_getElem hi]
  · rcases eq_or_ne k i with rfl | hki
    · rw [if_neg hkj.symm, if_pos rfl, if_pos hi, Equiv.swap_apply_left,
        List.getElem?_eq_getElem hj]
    · rw [if_neg hkj.symm, if_neg hki.symm, Equiv.swap_apply_of_ne_of_ne hki hkj]

theorem Holds.modify (h : r.Holds n as) (i : Nat) (f : α → α) :
    (r.modify i f).Holds n (as.modify i f) := by
  have hsame := sameCursors_modify r i f
  obtain ⟨hb, hget⟩ := modify_spec h.bounded i f
  refine ⟨hb, hsame.slots.trans h.slots, ?_, fun k => ?_⟩
  · rw [hsame.size, h.size, List.length_modify]
  · rw [hget, h.get?, List.getElem?_modify]
    rcases eq_or_ne k i with rfl | hki
    · simp
    · simp [hki, hki.symm]

/-- Two entries change places. -/
theorem Holds.swap (h : r.Holds n as) (i j : Nat) : (r.swap i j).Holds n (exchange as i j) := by
  by_cases hij : i < as.length ∧ j < as.length
  · obtain ⟨hi, hj⟩ := hij
    have hsame := sameCursors_swap r i j
    obtain ⟨hb, hget⟩ := swap_spec h.bounded (h.size ▸ hi) (h.size ▸ hj)
    refine ⟨hb, hsame.slots.trans h.slots, ?_, fun k => ?_⟩
    · rw [hsame.size, h.size, exchange_eq hi hj, List.length_set, List.length_set]
    · rw [hget, h.get?, getElem?_exchange hi hj]
  · rw [exchange_of_not_lt hij, Ring.swap, h.size, if_neg hij]
    exact h

/-- Two neighbours change places. -/
theorem Holds.swap_neighbours (h : r.Holds n (as ++ a :: b :: bs)) :
    (r.swap as.length (as.length + 1)).Holds n (as ++ b :: a :: bs) := by
  have hlist : exchange (as ++ a :: b :: bs) as.length (as.length + 1) = as ++ b :: a :: bs := by
    simp [exchange, List.set_append_right]
  exact hlist ▸ h.swap as.length (as.length + 1)

/-! ### Requests -/

/-- What can be asked of a ring. -/
inductive Request (α : Type) where
  /-- Append an entry. -/
  | push (a : α)
  /-- Remove the oldest entry. -/
  | pop
  /-- Read an entry. -/
  | get (i : Nat)
  /-- Read an entry and change it. -/
  | modify (i : Nat) (f : α → α)
  /-- Exchange two entries. -/
  | swap (i j : Nat)
  /-- Drop every entry. -/
  | clear

/-- What a ring answers to a request, and the ring after it. -/
def serve (r : Ring α) : Request α → Option α × Ring α
  | .push a => r.push a
  | .pop => r.pop
  | .get i => (r.get? i, r)
  | .modify i f => (r.get? i, r.modify i f)
  | .swap i j => (none, r.swap i j)
  | .clear => (none, r.clear)

/-- What a ring answers to some requests, in this order, and the ring after them. -/
def serveAll (r : Ring α) : List (Request α) → List (Option α) × Ring α
  | [] => ([], r)
  | request :: requests =>
    let (answer, r) := r.serve request
    let (answers, r) := r.serveAll requests
    (answer :: answers, r)

/-- What a list with room for so many entries answers to a request, and the list after it. An entry
is appended to a full list once its head is removed, and then the head is the answer. -/
def Request.onList (room : Nat) (as : List α) : Request α → Option α × List α
  | .push a => if as.length = room then (as.head?, as.tail ++ [a]) else (none, as ++ [a])
  | .pop => (as.head?, as.tail)
  | .get i => (as[i]?, as)
  | .modify i f => (as[i]?, as.modify i f)
  | .swap i j => (none, exchange as i j)
  | .clear => (none, [])

/-- What a list with room for so many entries answers to some requests, in this order, and the list
after them. -/
def answersOf (room : Nat) (as : List α) : List (Request α) → List (Option α) × List α
  | [] => ([], as)
  | request :: requests =>
    let (answer, as) := request.onList room as
    let (answers, as) := answersOf room as requests
    (answer :: answers, as)

/-- A ring answers a request as the list of its entries does, wherever its cursors stand, and then
holds the list as it is after the request. -/
theorem Holds.serve (h : r.Holds (room + 1) as) (request : Request α) :
    (r.serve request).1 = (request.onList room as).1
      ∧ (r.serve request).2.Holds (room + 1) (request.onList room as).2 := by
  cases request with
  | push a =>
    obtain ⟨hanswer, hrest⟩ := h.push a
    simp only [Ring.serve, Request.onList, Nat.add_right_cancel_iff] at hanswer ⊢
    split at hanswer
    · next hfull =>
      -- the head is there because the ring has a slot to spare and one for an entry
      have hroom := h.slots ▸ h.bounded.slots
      obtain ⟨first, rest, rfl⟩ := List.exists_cons_of_length_pos (by omega : 0 < as.length)
      rw [if_pos hfull]
      rw [hanswer] at hrest
      exact ⟨hanswer, hrest⟩
    · next hroom =>
      rw [if_neg hroom]
      rw [hanswer] at hrest
      exact ⟨hanswer, hrest⟩
  | pop =>
    cases as with
    | nil =>
      rw [Ring.serve, h.pop_nil]
      exact ⟨rfl, h⟩
    | cons a as => exact h.pop
  | get i => exact ⟨h.get? i, h⟩
  | modify i f => exact ⟨h.get? i, h.modify i f⟩
  | swap i j => exact ⟨rfl, h.swap i j⟩
  | clear => exact ⟨rfl, h.clear⟩

theorem Holds.serveAll (h : r.Holds (room + 1) as) (requests : List (Request α)) :
    (r.serveAll requests).1 = (answersOf room as requests).1
      ∧ (r.serveAll requests).2.Holds (room + 1) (answersOf room as requests).2 := by
  induction requests generalizing r as with
  | nil => exact ⟨rfl, h⟩
  | cons request requests ih =>
    obtain ⟨hanswer, hafter⟩ := h.serve request
    obtain ⟨hanswers, hlast⟩ := ih hafter
    exact ⟨congrArg₂ List.cons hanswer hanswers, hlast⟩

/-! ### What can be seen of a ring -/

/-- Everything that can be seen of a ring is as it is for a list with room for so many entries. -/
structure Shows (r : Ring α) (room : Nat) (as : List α) : Prop where
  /-- One slot stays unused. -/
  capacity : r.capacity = room + 1
  /-- The list fits. -/
  length_le : as.length ≤ room
  /-- The entries from the oldest to the newest. -/
  forward : r.toList = as
  /-- The entries from the newest to the oldest. -/
  backward : (List.range r.size).reverse.filterMap r.get? = as.reverse
  /-- The number of entries. -/
  size : r.size = as.length
  /-- There are no entries. -/
  isEmpty : r.isEmpty = true ↔ as = []
  /-- There is no room for another entry. -/
  isFull : r.isFull = true ↔ as.length = room
  /-- The entries by their positions, and none past the end. -/
  get? : ∀ i, r.get? i = as[i]?

theorem Holds.shows (h : r.Holds (room + 1) as) : r.Shows room as where
  capacity := h.slots
  length_le := Nat.le_of_lt_succ h.length_lt
  forward := h.toList
  backward := by
    rw [List.filterMap_reverse]
    exact congrArg List.reverse h.toList
  size := h.size
  isEmpty := by rw [isEmpty_iff h.bounded, h.size, List.length_eq_zero_iff]
  isFull := by rw [h.isFull_iff, Nat.add_right_cancel_iff]
  get? := h.get?

/-- **A ring is a first-in-first-out list of bounded length.** Whatever is asked of a new ring, it
answers as a list does that has room for one entry less than there are slots, and afterwards
everything that can be seen of it is as it is for that list. -/
theorem serves_as_list (capacity : Nat) (requests : List (Request α)) :
    ((make capacity).serveAll requests).1 = (answersOf (max capacity 2 - 1) [] requests).1
      ∧ ((make capacity).serveAll requests).2.Shows (max capacity 2 - 1)
        (answersOf (max capacity 2 - 1) [] requests).2 := by
  have hslots : max capacity 2 = max capacity 2 - 1 + 1 := by omega
  obtain ⟨hanswers, hlast⟩ := (hslots ▸ holds_make capacity :
    (make capacity : Ring α).Holds (max capacity 2 - 1 + 1) []).serveAll requests
  exact ⟨hanswers, hlast.shows⟩

/-- Both cursors of a ring with room for two go round, and the two newest entries stay. -/
example : ((make 3).serveAll [.push 0, .push 1, .push 2, .push 3, .swap 0 1, .pop, .push 4]).1
    = [none, none, some 0, some 1, none, some 3, none] := by
  decide

end Ring

end SwarmVm
