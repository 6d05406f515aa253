import SwarmVm.Proofs.Heap.Slots
import Mathlib.Data.Finset.Card
import Mathlib.Data.Nat.Find
import Mathlib.Data.List.Perm.Subperm
import Mathlib.Logic.Function.Iterate

/-!
# Chains of segments

A table names its first segment, and each segment the next. Two readings of this are in use. The
tables and arrays follow links until the last segment and take for granted that the chain ends;
`Linked` is the statement that it does, with all its segments in use. The collector takes nothing
for granted: it follows links only through segments in use, and a chain may run in a circle.
`OnChain` is what it follows.

A finite chain cannot repeat a segment, since a segment determines everything behind it. So there is
no separate condition that the segments of a chain are distinct: it is `Linked.nodup`.

## Main definitions

* `Heap.Linked` — the segments from one on, up to the end of the chain
* `Heap.OnChain` — a segment is reached through segments in use

## Main results

* `Heap.Linked.nodup`, `Heap.Linked.chain_eq` — a chain that ends has distinct segments, and the
  bound in `Heap.chain` does not cut it
* `Heap.mem_usedChain_iff` — neither does the bound of the collector, also on a circle
* `Heap.onChain_iff_mem` — on a chain that ends, both readings agree
-/

namespace SwarmVm

namespace Heap

variable {h h' : Heap} {s s' u x : SegRef} {l l' l₁ l₂ : List SegRef} {t : Ref}

/-! ### Chains that end -/

/-- `l` are the segments from `s` on. All of them are in use, and the last one ends the chain. -/
def Linked (h : Heap) : SegRef → List SegRef → Prop
  | s, [] => s = noNext
  | s, x :: l => s = x ∧ s ≠ noNext ∧ h.segmentIsValid s = true ∧ h.Linked (h.next s) l

theorem Linked.unique : ∀ {s : SegRef} {l l' : List SegRef},
    h.Linked s l → h.Linked s l' → l = l'
  | _, [], [], _, _ => rfl
  | _, [], _ :: _, hl, hl' => absurd hl hl'.2.1
  | _, _ :: _, [], hl, hl' => absurd hl' hl.2.1
  | _, _ :: _, _ :: _, ⟨rfl, _, _, hl⟩, ⟨rfl, _, _, hl'⟩ => by rw [hl.unique hl']

theorem Linked.isValid : ∀ {s : SegRef} {l : List SegRef}, h.Linked s l → ∀ x ∈ l,
    h.segmentIsValid x = true
  | _, _ :: _, ⟨rfl, _, hv, hl⟩, x, hx => by
    rcases List.mem_cons.1 hx with rfl | hx
    · exact hv
    · exact hl.isValid x hx

theorem Linked.lt (hl : h.Linked s l) (hx : x ∈ l) : x.toNat < h.segmentSlots :=
  lt_segmentSlots_of_isValid (hl.isValid x hx)

/-- From a segment of a chain on, the chain is what stands behind that segment. -/
theorem Linked.of_append : ∀ {l₁ : List SegRef} {s : SegRef}, h.Linked s (l₁ ++ x :: l₂) →
    h.Linked x (x :: l₂)
  | [], _, ⟨rfl, hne, hv, hl⟩ => ⟨rfl, hne, hv, hl⟩
  | _ :: _, _, ⟨_, _, _, hl⟩ => hl.of_append

/-- A chain that ends has distinct segments: what stands behind a segment is determined by it. -/
theorem Linked.nodup : ∀ {s : SegRef} {l : List SegRef}, h.Linked s l → l.Nodup
  | _, [], _ => List.nodup_nil
  | s, x :: l, hl => by
    refine List.nodup_cons.2 ⟨fun hx => ?_, hl.2.2.2.nodup⟩
    obtain ⟨l₁, l₂, rfl⟩ := List.append_of_mem hx
    have htail : h.Linked x (x :: l₂) := hl.2.2.2.of_append
    have hsame := (hl.1 ▸ hl : h.Linked x (x :: (l₁ ++ x :: l₂))).unique htail
    have := congrArg List.length hsame
    simp only [List.length_cons, List.length_append] at this
    omega

/-- There are no more segments in use than slots. -/
theorem length_le_segmentSlots (nodup : l.Nodup) (hl : ∀ x ∈ l, x.toNat < h.segmentSlots) :
    l.length ≤ h.segmentSlots := by
  have hinj : Function.Injective UInt16.toNat := fun a b => UInt16.toNat_inj.1
  have hsub : l.map UInt16.toNat ⊆ List.range h.segmentSlots := by
    intro n hn
    obtain ⟨x, hx, rfl⟩ := List.mem_map.1 hn
    exact List.mem_range.2 (hl x hx)
  have := ((nodup.map hinj).subperm hsub).length_le
  rwa [List.length_map, List.length_range] at this

theorem Linked.length_le (hl : h.Linked s l) : l.length ≤ h.segmentSlots :=
  length_le_segmentSlots hl.nodup fun _ => hl.lt

theorem Linked.chainFrom_eq : ∀ {l : List SegRef} {s : SegRef} {n : Nat}, h.Linked s l →
    l.length ≤ n → h.chainFrom n s = l
  | [], s, 0, _, _ => rfl
  | [], s, n + 1, hl, _ => if_pos hl
  | _ :: l, _, n + 1, ⟨rfl, hne, _, hl⟩, hn => by
    rw [chainFrom, if_neg hne, hl.chainFrom_eq (Nat.le_of_succ_le_succ hn)]

/-- The segments of a table are all of its chain. -/
theorem Linked.chain_eq (hl : h.Linked (h.tableHead t) l) : h.chain t = l :=
  hl.chainFrom_eq (hl.length_le.trans (Nat.le_add_right _ _))

/-- A chain is read off the links of its own segments, and their marks do not count. -/
theorem Linked.of_next_eq : ∀ {s : SegRef} {l : List SegRef}, h.Linked s l →
    (∀ x ∈ l, h'.segmentIsValid x = true ∧ h'.next x = h.next x) → h'.Linked s l
  | _, [], hl, _ => hl
  | _, _ :: _, ⟨rfl, hne, _, hl⟩, same => by
    obtain ⟨hv, hx⟩ := same _ List.mem_cons_self
    refine ⟨rfl, hne, hv, ?_⟩
    rw [hx]
    exact hl.of_next_eq fun y hy => same y (List.mem_cons_of_mem _ hy)

theorem Linked.congr (hl : h.Linked s l) (same : ∀ x ∈ l, h'.link x = h.link x) :
    h'.Linked s l := by
  refine hl.of_next_eq fun x hx => ⟨?_, ?_⟩
  · rw [segmentIsValid, same x hx]
    exact hl.isValid x hx
  · rw [next, same x hx, next]

/-- A chain with a new end: `x` is made to point at a chain that it is not on itself. -/
theorem Linked.replace_tail : ∀ {l₁ : List SegRef} {s : SegRef}, h.Linked s (l₁ ++ x :: l₂) →
    (∀ y ∈ l₁, h'.link y = h.link y) → h'.segmentIsValid x = true → h'.Linked (h'.next x) l' →
    h'.Linked s (l₁ ++ x :: l')
  | [], _, ⟨rfl, hne, _, _⟩, _, hv, hl' => ⟨rfl, hne, hv, hl'⟩
  | y :: l₁, _, ⟨rfl, hne, hv, hl⟩, same, hvx, hl' => by
    have hy := same _ List.mem_cons_self
    refine ⟨rfl, hne, by rwa [segmentIsValid, hy], ?_⟩
    rw [next, hy]
    exact hl.replace_tail (fun z hz => same z (List.mem_cons_of_mem _ hz)) hvx hl'

/-! ### Chains as the collector follows them -/

/-- `u` is reached from `s` by following links, and every segment on the way is in use. -/
inductive OnChain (h : Heap) : SegRef → SegRef → Prop
  | here {s : SegRef} : s ≠ noNext → h.segmentIsValid s = true → OnChain h s s
  | next {s u : SegRef} : s ≠ noNext → h.segmentIsValid s = true → OnChain h (h.next s) u →
    OnChain h s u

theorem OnChain.isValid (hu : h.OnChain s u) : h.segmentIsValid u = true := by
  induction hu with
  | here _ hv => exact hv
  | next _ _ _ ih => exact ih

theorem OnChain.of_mem_usedChainFrom {n : Nat} (hu : u ∈ h.usedChainFrom n s) : h.OnChain s u := by
  induction n generalizing s with
  | zero => simp [usedChainFrom] at hu
  | succ n ih =>
    rw [usedChainFrom] at hu
    split at hu
    · simp at hu
    · next hne =>
      split at hu
      · next hv =>
        rcases List.mem_cons.1 hu with rfl | hu
        · exact .here hne hv
        · exact .next hne hv (ih hu)
      · simp at hu

/-- The segment at which a walk from `s` is after `i` links. -/
theorem OnChain.exists_iterate (hu : h.OnChain s u) : ∃ i, h.next^[i] s = u
    ∧ ∀ j ≤ i, h.next^[j] s ≠ noNext ∧ h.segmentIsValid (h.next^[j] s) = true := by
  induction hu with
  | here hne hv => exact ⟨0, rfl, fun j hj => by obtain rfl := Nat.le_zero.1 hj; exact ⟨hne, hv⟩⟩
  | next hne hv _ ih =>
    obtain ⟨i, hi, hok⟩ := ih
    refine ⟨i + 1, hi, fun j hj => ?_⟩
    cases j with
    | zero => exact ⟨hne, hv⟩
    | succ j => exact hok j (by omega)

theorem mem_usedChainFrom_of_iterate : ∀ {n i : Nat} {s : SegRef}, i < n →
    (∀ j ≤ i, h.next^[j] s ≠ noNext ∧ h.segmentIsValid (h.next^[j] s) = true) →
    h.next^[i] s ∈ h.usedChainFrom n s
  | n + 1, i, s, hi, hok => by
    obtain ⟨hne, hv⟩ := hok 0 (Nat.zero_le _)
    simp only [Function.iterate_zero_apply] at hne hv
    rw [usedChainFrom, if_neg hne, if_pos hv]
    cases i with
    | zero => exact List.mem_cons_self
    | succ i =>
      refine List.mem_cons_of_mem _ ?_
      rw [Function.iterate_succ_apply]
      exact mem_usedChainFrom_of_iterate (by omega) fun j hj => by
        simpa only [Function.iterate_succ_apply] using hok (j + 1) (by omega)

/-- Of all walks to a segment the shortest one does not come to any segment twice, so it takes fewer
links than there are slots. -/
theorem OnChain.exists_short_iterate (hu : h.OnChain s u) : ∃ i < h.segmentSlots,
    h.next^[i] s = u ∧ ∀ j ≤ i, h.next^[j] s ≠ noNext ∧ h.segmentIsValid (h.next^[j] s) = true := by
  classical
  have hex := hu.exists_iterate
  obtain ⟨hi, hok⟩ := Nat.find_spec hex
  have hmin : ∀ j < Nat.find hex, h.next^[j] s ≠ u := by
    intro j hj he
    exact Nat.find_min hex hj ⟨he, fun k hk => hok k (by omega)⟩
  refine ⟨Nat.find hex, ?_, hi, hok⟩
  generalize Nat.find hex = i at *
  -- two equal segments on the walk would allow a shorter one
  have hinj : Set.InjOn (fun j => (h.next^[j] s).toNat) (Finset.range (i + 1)) := by
    have key : ∀ j k, j < k → k ≤ i → h.next^[j] s ≠ h.next^[k] s := by
      intro j k hjk hk he
      refine hmin (i - k + j) (by omega) ?_
      rw [Function.iterate_add_apply, he, ← Function.iterate_add_apply, Nat.sub_add_cancel hk, hi]
    intro j hj k hk he
    have hj : j < i + 1 := by simpa using hj
    have hk : k < i + 1 := by simpa using hk
    have he := UInt16.toNat_inj.1 he
    rcases Nat.lt_trichotomy j k with hlt | rfl | hlt
    · exact absurd he (key j k hlt (by omega))
    · rfl
    · exact absurd he.symm (key k j hlt (by omega))
  have hcard := Finset.card_le_card_of_injOn (t := Finset.range h.segmentSlots) _
    (fun j hj => by
      have hj : j < i + 1 := by simpa using hj
      simpa using lt_segmentSlots_of_isValid (hok j (by omega)).2) hinj
  rw [Finset.card_range, Finset.card_range] at hcard
  exact hcard

/-- The collector finds every segment of a chain, also when the chain runs in a circle. -/
theorem mem_usedChain_iff : u ∈ h.usedChain s ↔ h.OnChain s u := by
  refine ⟨OnChain.of_mem_usedChainFrom, fun hu => ?_⟩
  obtain ⟨i, hlt, rfl, hok⟩ := hu.exists_short_iterate
  exact mem_usedChainFrom_of_iterate hlt hok

/-- On a chain that ends, both readings agree. -/
theorem onChain_iff_mem : ∀ {l : List SegRef} {s : SegRef}, h.Linked s l →
    (h.OnChain s u ↔ u ∈ l)
  | [], s, hl => by
    refine ⟨fun hu => ?_, fun hu => absurd hu List.not_mem_nil⟩
    cases hu with
    | here hne _ => exact absurd hl hne
    | next hne _ _ => exact absurd hl hne
  | _ :: l, _, ⟨rfl, hne, hv, hl⟩ => by
    rw [List.mem_cons, ← onChain_iff_mem hl]
    refine ⟨fun hu => ?_, ?_⟩
    · cases hu with
      | here => exact .inl rfl
      | next _ _ hu => exact .inr hu
    · rintro (rfl | hu)
      · exact .here hne hv
      · exact .next hne hv hu

end Heap

end SwarmVm
