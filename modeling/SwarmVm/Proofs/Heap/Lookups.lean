import Mathlib.Data.List.Find
import SwarmVm.Proofs.Heap.Captures
import SwarmVm.Proofs.Heap.Maps

/-!
# What is read after a store

A value that is stored under a key is read back under every key that is equal to it, and is read
back later, as long as the table and the values of its keys are as they were. That the table is a
map is not needed for either: the first place with an equal key is the one that was written. It is
enough that the table has a first segment, since without one nothing is stored.

Later the object that served as the key may be gone, and its index may be that of another object.
So a key is compared with the value that the first one had then (`Heap.Equals`).

## Main definitions

* `Heap.Equals` — an object is equal to what another one was in an earlier heap
* `Heap.KeepsTable` — a table is as it was, and so are its keys

## Main results

* `Heap.get_tableSet` — what is stored is read back
* `Heap.KeepsTable.tableGet?` — what could be read can still be read
* `Heap.keepsTable_collect` — collections keep the tables that they leave
-/

namespace SwarmVm

namespace Heap

variable {h h' : Heap} {a b t k k' v : Ref} {q : PairSlot}

/-! ### Equality over time -/

/-- The object `b` of `h'` is equal to what the object `a` was in `h`. -/
def Equals (h : Heap) (a : Ref) (h' : Heap) (b : Ref) : Prop :=
  (b = a ∧ h'.value b = h.value a) ∨ (h'.value b).order (h.value a) = .eq

/-- Within one heap this is how objects are compared. -/
theorem equals_self_iff : h.Equals a h b ↔ h.compare b a = .eq := by
  rw [Equals, Heap.compare]
  split
  · next he => simp [he]
  · next ne => simp [ne]

/-- A key whose value is the same is equal to the same objects. -/
theorem Equals.alike_iff (he : h.Equals a h' b) (hk : h'.value k = h.value k) :
    h'.Alike k b ↔ h.Alike k a := by
  rcases he with ⟨rfl, hb⟩ | hb
  · exact alike_congr (by rw [hk]) (by rw [hb])
  · obtain ⟨rank, hrb, hra⟩ := (Value.order_eq_iff _ _).1 hb
    simp only [Heap.alike_iff, hra, hrb, hk, Option.some.injEq]
    -- an object that is the key itself has its rank as well
    refine ⟨fun hkb => .inr (hkb.elim ?_ id), fun hka => .inr (hka.elim ?_ id)⟩
    · rintro rfl
      exact ⟨rank, by rw [← hk, hrb], rfl⟩
    · rintro rfl
      exact ⟨rank, hra, rfl⟩

theorem Resembles.rank? (al : Resembles h h') (r : Ref) :
    (h'.value r).rank? = (h.value r).rank? := by
  by_cases hk : h.kind r = .table
  · cases hv : h.isValid r with
    | true =>
      rw [rank?_of_isTable ⟨hv, hk⟩,
        rank?_of_isTable ⟨(al.isValid r).trans hv, (al.kind r).trans hk⟩]
    | false => rw [value_of_not_isValid hv, value_of_not_isValid ((al.isValid r).trans hv)]
  · rw [al.value r hk]

theorem Resembles.alike_iff (al : Resembles h h') : h'.Alike a b ↔ h.Alike a b :=
  alike_congr (al.rank? a) (al.rank? b)

/-! ### Right after a store -/

/-- A place with the key, when it is the only one, is the one that is found. -/
theorem findKey?_of_unique (hq : q ∈ h.pairSlots t) (hk : h.hasKey k q = true)
    (unique : ∀ q' ∈ h.pairSlots t, h.hasKey k q' = true → q' = q) : h.findKey? t k = some q := by
  cases hf : h.findKey? t k with
  | none => exact absurd hk (List.find?_eq_none.1 hf q hq)
  | some q' =>
    rw [unique q' (List.mem_of_find?_eq_some hf) (List.find?_some hf)]

/-- A value that is replaced is found where the key was found. -/
theorem get_setFieldValue (wf : h.WellFormed) (ht : h.IsTable t) (hq : h.findKey? t k = some q)
    (hv : slotRef v = v) (hk : h.Alike k' k) :
    (h.setFieldValue q (some v)).tableGet? t k' = some v := by
  have hmem := List.mem_of_find?_eq_some hq
  obtain ⟨hseg, hpair⟩ := mem_pairSlots hmem
  have w := rewrites_setFieldValue wf ht hmem (some v)
  have al : Resembles h (h.setFieldValue q (some v)) := (sameObjects_setElement wf.layout
    (wf.segment_lt ht hseg) (PairSlot.key_lt hpair).2 _).resembles
  have hfind : (h.setFieldValue q (some v)).findKey? t k' = h.findKey? t k := by
    rw [findKey?, findKey?, w.pairSlots]
    refine List.find?_congr fun q' hq' => ?_
    have hkey : (h.setFieldValue q (some v)).key? q' = h.key? q' := by
      rw [w.key? q' hq']
      split
      · next he => rw [he]
      · rfl
    rw [Bool.eq_iff_iff, hasKey_eq_true, hasKey_eq_true]
    simp only [hkey, al.alike_iff]
    exact exists_congr fun key => and_congr_right fun _ => ⟨(·.trans hk), (·.trans hk.symm)⟩
  rw [tableGet?, hfind, hq, Option.bind_some, w.fieldValue? q hmem, if_pos rfl, Option.map_some, hv]

/-- A pair is found that is written where no key was, when the key is not found elsewhere. -/
theorem Rewrites.get (w : Rewrites h h' t q (some k) (some v)) (hq : q ∈ h.pairSlots t)
    (al : Resembles h h') (absent : ∀ q' ∈ h.pairSlots t, h.hasKey k q' = false)
    (hk : h.Alike k' k) : h'.tableGet? t k' = some v := by
  have hkey : h'.key? q = some k := by rw [w.key? q hq, if_pos rfl]
  have hfind : h'.findKey? t k' = some q := by
    refine findKey?_of_unique (w.mem hq) (hasKey_eq_true.2 ⟨k, hkey, al.alike_iff.2 hk.symm⟩)
      fun q' hq' hhas => ?_
    rw [w.pairSlots] at hq'
    by_contra ne
    obtain ⟨key, hkey', hek⟩ := hasKey_eq_true.1 hhas
    rw [w.key? q' hq', if_neg ne] at hkey'
    have := hasKey_eq_true.2 ⟨key, hkey', (al.alike_iff.1 hek).trans hk⟩
    rw [absent q' hq'] at this
    cases this
  rw [tableGet?, hfind, Option.bind_some, w.fieldValue? q hq, if_pos rfl]

/-- A pair is put at a hole, or in a new segment when there is none. -/
theorem get_insertPair (wf : h.WellFormed) (ht : h.IsTable t) (hne : h.chain t ≠ [])
    (hq : h.findKey? t k = none) (hks : slotRef k = k) (hvs : slotRef v = v) :
    Ends (insertPair t k v) h (fun _ h' => ∀ k', h.Alike k' k → h'.tableGet? t k' = some v)
      fun _ h' => h' = h := by
  have absent : ∀ q ∈ h.pairSlots t, h.hasKey k q = false :=
    fun q hmem => Bool.not_eq_true _ ▸ List.find?_eq_none.1 hq q hmem
  refine ends_get_bind ?_
  cases hf : h.freePair? t with
  | some q =>
    have hmem := List.mem_of_find?_eq_some hf
    obtain ⟨hseg, hpair⟩ := mem_pairSlots hmem
    have w := rewrites_writePair wf ht hmem k v
    rw [hks, hvs] at w
    exact ends_modify fun k' => w.get hmem (sameObjects_setPair wf.layout (wf.segment_lt ht hseg)
      hpair _ _).resembles absent
  | none =>
    refine ends_get_bind (ends_bind (newSegment_allocSegment wf.layout) fun s h₁ n => ?_)
    rw [List.getLast?_eq_some_getLast hne, Option.getD_some]
    have hlast := (List.dropLast_append_getLast hne).symm
    have o := sameObjects_append wf ht (List.getLast_mem hne) n
    obtain ⟨_, wf₂, ht₂, hc₂⟩ := spares_append wf ht hlast n
    obtain ⟨hslots, hold, hnew⟩ := places_append wf ht hlast n
    refine ends_bind (ends_modify (Q := fun _ h' => h' = h₁.setNext _ s) rfl) fun _ h₂ he => ?_
    rw [← he] at o wf₂ ht₂ hc₂ hslots hold hnew
    clear he
    have hfirst : (⟨s, 0⟩ : PairSlot) ∈ segmentPairs s := mem_segmentPairs.2 ⟨rfl, Nat.succ_pos _⟩
    have hmem : (⟨s, 0⟩ : PairSlot) ∈ h₂.pairSlots t := by
      rw [hslots]
      exact List.mem_append_right _ hfirst
    have w := rewrites_writePair wf₂ ht₂ hmem k v
    rw [hks, hvs] at w
    refine ends_modify fun k' hk => w.get hmem (sameObjects_setPair wf₂.layout
      (wf₂.segment_lt ht₂ (mem_pairSlots hmem).1) (Nat.succ_pos _) _ _).resembles
      (fun q hmem' => ?_) (o.resembles.alike_iff.2 hk)
    rw [hslots] at hmem'
    rw [← Bool.not_eq_true, hasKey_eq_true]
    rintro ⟨key, hkey, hek⟩
    rcases List.mem_append.1 hmem' with hmem' | hmem'
    · rw [(hold q hmem').1] at hkey
      have := hasKey_eq_true.2 ⟨key, hkey, o.resembles.alike_iff.1 hek⟩
      rw [absent q hmem'] at this
      cases this
    · rw [(hnew q hmem').1] at hkey
      cases hkey

/-- **What is stored is read back** under every key that is equal to the one it was stored under. -/
theorem get_tableSet (wf : h.WellFormed) (tidy : h.Tidy) (ht : h.IsTable t)
    (hhead : h.tableHead t ≠ noNext) (hk : h.kind k ≠ .nil) (hv : h.kind v ≠ .nil) :
    Ends (tableSet t k v) h (fun _ h' => ∀ k', h.Alike k' k → h'.tableGet? t k' = some v)
      fun _ h' => h' = h := by
  have hslot : ∀ r, h.kind r ≠ .nil → slotRef r = r :=
    fun r hr => slotRef_of_isValid wf.layout (tidy.isValid_of_kind hr)
  have hne : h.chain t ≠ [] := by
    intro hnil
    have hl := wf.linked t ht
    rw [hnil] at hl
    exact hhead hl
  refine ends_get_bind ?_
  rw [if_neg (by simp [hhead, hk]), decide_eq_false hv]
  cases hq : h.findKey? t k with
  | some q => exact ends_set fun k' => get_setFieldValue wf ht hq (hslot v hv)
  | none => exact get_insertPair wf ht hne hq (hslot k hk) (hslot v hv)

/-! ### Later -/

/-- The table `t` is in `h'` as it is in `h`, and its keys have their values. -/
structure KeepsTable (h h' : Heap) (t : Ref) : Prop where
  /-- The table is as it was. -/
  table : Unaltered h h' t
  /-- Its keys have their values. -/
  keys : ∀ q ∈ h.pairSlots t, ∀ k ∈ h.key? q, h'.value k = h.value k

/-- What is in the first place of a table whose key meets a condition. -/
def fieldWith? (h : Heap) (t : Ref) (p : Ref → Bool) : Option Ref :=
  ((h.pairSlots t).find? fun q => (h.key? q).any p).bind h.fieldValue?

/-- It is found among the pairs of slots. -/
theorem fieldWith?_eq_find_pairs (h : Heap) (t : Ref) (p : Ref → Bool) : h.fieldWith? t p
    = (((h.pairSlots t).map fun q => (h.key? q, h.fieldValue? q)).find? fun e =>
        e.1.any p).bind Prod.snd := by
  rw [List.find?_map, Option.bind_map]
  rfl

theorem KeepsTable.fieldWith? (kt : KeepsTable h h' t) {p p' : Ref → Bool}
    (hp : ∀ key, h'.value key = h.value key → p' key = p key) :
    h'.fieldWith? t p' = h.fieldWith? t p := by
  rw [fieldWith?_eq_find_pairs, fieldWith?_eq_find_pairs, kt.table.map_pairSlots]
  refine congrArg (Option.bind · Prod.snd) (List.find?_congr fun e he => ?_)
  obtain ⟨q, hq, rfl⟩ := List.mem_map.1 he
  cases hkey : h.key? q with
  | none => rfl
  | some key => exact hp key (kt.keys q hq key hkey)

/-- **What could be read can still be read** under a key that is equal to what the first one was. -/
theorem KeepsTable.tableGet? (kt : KeepsTable h h' t) (he : h.Equals k h' k') :
    h'.tableGet? t k' = h.tableGet? t k := by
  refine kt.fieldWith? fun key hkey => ?_
  rw [Bool.eq_iff_iff, beq_compare, beq_compare]
  exact he.alike_iff hkey

/-- A collection that leaves a table leaves its keys. -/
theorem keepsTable_collect (wf : h.WellFormed) {roots : List Ref} (ht : h.IsTable t)
    (hv : (h.collect roots).2.isValid t = true) : KeepsTable h (h.collect roots).2 t := by
  refine ⟨unaltered_collect wf hv, fun q hq k hk => ?_⟩
  obtain ⟨hseg, hpair⟩ := mem_pairSlots hq
  have points : h.PointsTo t k :=
    (wf.pointsTo_iff ht).2 ⟨_, hseg, _, (PairSlot.key_lt hpair).1, hk⟩
  by_cases hvk : h.isValid k = true
  · obtain ⟨-, r₀, hv₀, root, path⟩ := (isValid_collect_iff wf.layout).1 hv
    exact value_collect wf.layout
      ((isValid_collect_iff wf.layout).2 ⟨hvk, r₀, hv₀, root, path.tail points⟩)
  · have hgone : ¬ (h.collect roots).2.isValid k = true :=
      fun hv' => hvk ((isValid_collect_iff wf.layout).1 hv').1
    rw [value_of_not_isValid (by simpa using hgone), value_of_not_isValid (by simpa using hvk)]

end Heap

end SwarmVm
