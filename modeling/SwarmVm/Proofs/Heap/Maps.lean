import SwarmVm.Proofs.Heap.Places

/-!
# Tables are finite maps

A table keeps pairs in the places of its chain, in no order and with holes, and finds a key by going
through the places. What it stores is the list of its entries, which is read off the places; this
file says what storing does to that list. An entry is replaced where it is, taken out, or put in at
a hole or behind the last one (`Heap.Edit`), and nothing else happens.

Everything a map is expected to do follows from two facts about the list: no two keys are equal, and
an equal key is found wherever it stands. Both are about equality in the sense of `Heap.compare`,
which is an equivalence (`Heap.alike_equivalence`).

The other half is about segments. A segment that loses its last pair is unlinked, unless it is the
only one, so a chain never has an empty segment among others (`Heap.Mapped.busy`). Unlinking the
first segment makes the table name another one, so a table that is altered does change its value;
but a table is equal to itself only, whatever its value, so no key becomes equal to another by that.

## Main definitions

* `Heap.Mapped` — a table used as a map
* `Heap.Edit` — what storing does to the entries
* `Heap.TableBuilt` — the tables that can be made

## Main results

* `Heap.edit_tableSet` — storing is an edit, or fails and changes nothing
* `Heap.TableBuilt.mapped` — every table that can be made is a map
* `Heap.tables_are_maps` — what the operations on tables do, on maps
-/

namespace SwarmVm

namespace Heap

variable {h h' : Heap} {r t k v : Ref} {s p : SegRef} {q : PairSlot} {l l₁ l₂ : List SegRef}

/-! ### Maps -/

/-- The pairs of a table are complete, and no segment is there in vain. -/
structure Shaped (h : Heap) (t : Ref) : Prop where
  /-- The table is there, -/
  isTable : h.IsTable t
  /-- with a segment at least. -/
  chain_ne_nil : h.chain t ≠ []
  /-- Where there is a key there is a value. -/
  paired : ∀ q ∈ h.pairSlots t, (h.key? q).isSome = (h.fieldValue? q).isSome
  /-- No segment is empty, unless it is the only one. -/
  busy : (h.chain t).length = 1
    ∨ ∀ s ∈ h.chain t, ∃ q ∈ segmentPairs s, (h.key? q).isSome = true

/-- A table used as a map. -/
structure Mapped (h : Heap) (t : Ref) : Prop extends h.Shaped t where
  /-- The keys are there, and are not nil. -/
  keys : ∀ e ∈ h.tableEntries t, h.isValid e.1 = true ∧ h.kind e.1 ≠ .nil
  /-- No two of them are equal. -/
  distinct : (h.tableEntries t).Pairwise fun e e' => ¬ h.Alike e.1 e'.1

/-- What storing `v` under `k` does to the entries of a table. There is at most one entry with an
equal key, and it makes way for at most one: none when nil is stored. -/
inductive Edit (h : Heap) (k v : Ref) : List (Ref × Ref) → List (Ref × Ref) → Prop
  | intro {before behind : List (Ref × Ref)} (old new : Option (Ref × Ref)) :
    (∀ e ∈ before ++ behind, ¬ h.Alike e.1 k) →
    (∀ e ∈ old, h.Alike e.1 k) →
    (∀ e ∈ new, h.Alike e.1 k ∧ e.2 = v ∧ (e.1 = k ∨ ∃ e' ∈ old, e'.1 = e.1)) →
    (new.isSome ↔ h.kind v ≠ .nil) →
    Edit h k v (before ++ old.toList ++ behind) (before ++ new.toList ++ behind)

namespace Mapped

/-- A key is looked up among the entries. -/
theorem tableGet?_eq (m : h.Mapped t) (k : Ref) : h.tableGet? t k
    = ((h.tableEntries t).find? fun e => h.compare e.1 k == .eq).map Prod.snd := by
  have paired := m.paired
  rw [tableGet?, findKey?, tableEntries]
  generalize h.pairSlots t = slots at paired
  induction slots with
  | nil => rfl
  | cons q slots ih =>
    have hq := paired q List.mem_cons_self
    have ih := ih fun q' hq' => paired q' (List.mem_cons_of_mem q hq')
    cases hkey : h.key? q with
    | none =>
      have hmiss : h.hasKey k q = false := by rw [hasKey, hkey]; rfl
      have hhole : h.pairAt? q = none := by rw [pairAt?, hkey]
      rw [List.find?_cons, hmiss, List.filterMap_cons, hhole]
      exact ih
    | some key =>
      rw [hkey] at hq
      obtain ⟨value, hvalue⟩ := Option.isSome_iff_exists.1 hq.symm
      have hpair : h.pairAt? q = some (key, value) := by rw [pairAt?, hkey, hvalue]
      have hhas : h.hasKey k q = (h.compare key k == .eq) := by rw [hasKey, hkey]; rfl
      rw [List.find?_cons, hhas, List.filterMap_cons, hpair, List.find?_cons]
      cases hk : h.compare key k == .eq with
      | true => exact hvalue
      | false => exact ih

/-- What is found under a key is what an entry with an equal key holds. -/
theorem tableGet?_eq_some_iff (m : h.Mapped t) : h.tableGet? t k = some v
    ↔ ∃ e ∈ h.tableEntries t, h.Alike e.1 k ∧ e.2 = v := by
  rw [m.tableGet?_eq, Option.map_eq_some_iff]
  constructor
  · rintro ⟨e, he, rfl⟩
    have hek := List.find?_some he
    exact ⟨e, List.mem_of_find?_eq_some he, beq_compare.1 hek, rfl⟩
  · rintro ⟨e, he, hek, rfl⟩
    cases hf : (h.tableEntries t).find? fun e => h.compare e.1 k == .eq with
    | none => exact absurd (beq_compare.2 hek) (List.find?_eq_none.1 hf e he)
    | some e' =>
      have hek' := List.find?_some hf
      refine ⟨e', rfl, ?_⟩
      -- there is no second entry with an equal key
      by_contra hne
      have : Std.Symm fun e e' : Ref × Ref => ¬ h.Alike e.1 e'.1 := ⟨fun e e' hn ha => hn ha.symm⟩
      exact m.distinct.forall (List.mem_of_find?_eq_some hf) he (fun he => hne (he ▸ rfl))
        ((beq_compare.1 hek').trans hek.symm)

theorem tableGet?_eq_none_iff (m : h.Mapped t) :
    h.tableGet? t k = none ↔ ∀ e ∈ h.tableEntries t, ¬ h.Alike e.1 k := by
  rw [Option.eq_none_iff_forall_ne_some]
  constructor
  · intro hn e he hek
    exact hn e.2 (m.tableGet?_eq_some_iff.2 ⟨e, he, hek, rfl⟩)
  · intro hn v hv
    obtain ⟨e, he, hek, _⟩ := m.tableGet?_eq_some_iff.1 hv
    exact hn e he hek

end Mapped

theorem mem_append_toList {e : Ref × Ref} {before behind : List (Ref × Ref)}
    {o : Option (Ref × Ref)} :
    e ∈ before ++ o.toList ++ behind ↔ e ∈ before ++ behind ∨ e ∈ o := by
  simp only [List.mem_append, Option.mem_toList]
  exact or_right_comm

namespace Edit

variable {E E' : List (Ref × Ref)}

/-- Erasing a key that is not there. -/
theorem refl (hother : ∀ e ∈ E, ¬ h.Alike e.1 k) (hv : h.kind v = .nil) : Edit h k v E E := by
  have ed : Edit h k v ([] ++ (none : Option (Ref × Ref)).toList ++ E)
      ([] ++ (none : Option (Ref × Ref)).toList ++ E) :=
    .intro none none (by simpa using hother) (by simp) (by simp) (by simpa using hv)
  simpa using ed

/-- No two keys are equal afterwards. -/
theorem distinct (ed : Edit h k v E E') (hE : E.Pairwise fun e e' => ¬ h.Alike e.1 e'.1) :
    E'.Pairwise fun e e' => ¬ h.Alike e.1 e'.1 := by
  obtain @⟨before, behind, old, new, hother, _, hnew, _⟩ := ed
  have hrest : (before ++ behind).Pairwise fun e e' => ¬ h.Alike e.1 e'.1 := by
    refine hE.sublist ?_
    rw [List.append_assoc]
    exact (List.sublist_append_right old.toList behind).append_left before
  cases new with
  | none => simpa using hrest
  | some e =>
    obtain ⟨hbefore, hbehind, hcross⟩ := List.pairwise_append.1 hrest
    have hek := (hnew e rfl).1
    rw [Option.toList_some, List.append_assoc, List.singleton_append, List.pairwise_append,
      List.pairwise_cons]
    refine ⟨hbefore, ⟨fun e' he' hee' => ?_, hbehind⟩, fun e' he' e'' he'' => ?_⟩
    · exact hother e' (List.mem_append_right _ he') (hee'.symm.trans hek)
    · rcases List.mem_cons.1 he'' with rfl | he''
      · exact fun hee' => hother e' (List.mem_append_left _ he') (hee'.trans hek)
      · exact hcross e' he' e'' he''

/-- A key is the one that was given, or was there. -/
theorem key_of_mem (ed : Edit h k v E E') {e : Ref × Ref} (he : e ∈ E') :
    e.1 = k ∨ ∃ e' ∈ E, e'.1 = e.1 := by
  obtain ⟨_, _, _, _, hnew, _⟩ := ed
  rcases mem_append_toList.1 he with he | he
  · exact .inr ⟨e, mem_append_toList.2 (.inl he), rfl⟩
  · refine (hnew e he).2.2.imp id ?_
    rintro ⟨e', he', hk⟩
    exact ⟨e', mem_append_toList.2 (.inr he'), hk⟩

/-- Under an equal key there is the given value now, or nothing when it is nil. -/
theorem stored_of_alike (ed : Edit h k v E E') {k' w : Ref} (hk : h.Alike k' k) :
    (∃ e ∈ E', h.Alike e.1 k' ∧ e.2 = w) ↔ h.kind v ≠ .nil ∧ v = w := by
  obtain ⟨_, _, hother, _, hnew, hnil⟩ := ed
  constructor
  · rintro ⟨e, he, hek, rfl⟩
    rcases mem_append_toList.1 he with he | he
    · exact absurd (hek.trans hk) (hother e he)
    · exact ⟨hnil.1 (Option.isSome_of_mem he), (hnew e he).2.1.symm⟩
  · rintro ⟨hv, rfl⟩
    obtain ⟨e, he⟩ := Option.isSome_iff_exists.1 (hnil.2 hv)
    obtain ⟨hek, hev, _⟩ := hnew e he
    exact ⟨e, mem_append_toList.2 (.inr he), hek.trans hk.symm, hev⟩

/-- Entries with other keys are those that were there. -/
theorem mem_iff_of_not_alike (ed : Edit h k v E E') {e : Ref × Ref} (hk : ¬ h.Alike e.1 k) :
    e ∈ E' ↔ e ∈ E := by
  obtain ⟨_, _, _, hold, hnew, _⟩ := ed
  rw [mem_append_toList, mem_append_toList, or_iff_left fun he => hk (hnew e he).1,
    or_iff_left fun he => hk (hold e he)]

/-- Under every other key there is what there was. -/
theorem stored_of_not_alike (ed : Edit h k v E E') {k' w : Ref} (hk : ¬ h.Alike k' k) :
    (∃ e ∈ E', h.Alike e.1 k' ∧ e.2 = w) ↔ ∃ e ∈ E, h.Alike e.1 k' ∧ e.2 = w :=
  exists_congr fun _ => and_congr_left fun hek =>
    ed.mem_iff_of_not_alike fun hk' => hk (hek.1.symm.trans hk')

theorem length_of_stored (ed : Edit h k v E E') (hk : ∃ e ∈ E, h.Alike e.1 k) :
    E'.length + 1 = E.length + if h.kind v = .nil then 0 else 1 := by
  obtain @⟨before, behind, old, new, hother, _, _, hnil⟩ := ed
  obtain ⟨e, he, hek⟩ := hk
  have hold := (mem_append_toList.1 he).resolve_left fun he => hother e he hek
  obtain rfl : old = some e := hold
  cases new with
  | none =>
    have hv : h.kind v = .nil := by simpa using hnil
    simp [hv]
    omega
  | some e' =>
    have hv : h.kind v ≠ .nil := hnil.1 rfl
    simp [hv]

theorem length_of_absent (ed : Edit h k v E E') (hk : ∀ e ∈ E, ¬ h.Alike e.1 k) :
    E'.length = E.length + if h.kind v = .nil then 0 else 1 := by
  obtain @⟨before, behind, old, new, _, hold, _, hnil⟩ := ed
  have hnone : old = none := by
    refine Option.eq_none_iff_forall_not_mem.2 fun e he => ?_
    exact hk e (mem_append_toList.2 (.inr he)) (hold e he)
  subst hnone
  cases new with
  | none =>
    have hv : h.kind v = .nil := by simpa using hnil
    simp [hv]
  | some e =>
    have hv : h.kind v ≠ .nil := hnil.1 rfl
    simp [hv]
    omega

end Edit

/-! ### Writing a place -/

namespace Rewrites

theorem paired {key value : Option Ref} (w : Rewrites h h' t q key value)
    (hkv : key.isSome = value.isSome)
    (hp : ∀ q ∈ h.pairSlots t, (h.key? q).isSome = (h.fieldValue? q).isSome) :
    ∀ q ∈ h'.pairSlots t, (h'.key? q).isSome = (h'.fieldValue? q).isSome := by
  intro q' hq'
  rw [w.pairSlots] at hq'
  rw [w.key? q' hq', w.fieldValue? q' hq']
  split
  · exact hkv
  · exact hp q' hq'

/-- A segment that is written a pair to is not empty, and the others have the keys they had. -/
theorem shaped (w : Rewrites h h' t q (some k) (some v)) (hq : q ∈ h.pairSlots t)
    (hp : ∀ q ∈ h.pairSlots t, (h.key? q).isSome = (h.fieldValue? q).isSome)
    (hb : (h.chain t).length = 1
      ∨ ∀ s ∈ h.chain t, s ≠ q.segment → ∃ q ∈ segmentPairs s, (h.key? q).isSome = true) :
    h'.Shaped t := by
  obtain ⟨hseg, hpair⟩ := mem_pairSlots hq
  refine ⟨w.isTable, by rw [w.chain]; exact List.ne_nil_of_mem hseg, w.paired rfl hp, ?_⟩
  rw [w.chain]
  refine hb.imp id fun hb s hs => ?_
  by_cases hqs : s = q.segment
  · refine ⟨q, mem_segmentPairs.2 ⟨hqs.symm, hpair⟩, ?_⟩
    rw [w.key? q hq, if_pos rfl]
    rfl
  · obtain ⟨q', hq', hkey⟩ := hb s hs hqs
    have hmem := mem_segmentPairs.1 hq'
    refine ⟨q', hq', ?_⟩
    rwa [w.key? q' (mem_pairSlots_iff.2 ⟨hmem.1 ▸ hs, hmem.2⟩), if_neg]
    rintro rfl
    exact hqs hmem.1.symm

end Rewrites

/-- An edit of a map that alters nothing else leaves a map. -/
theorem Mapped.edited (m : h.Mapped t) (sp : Spares {t} h h') (shape : h'.Shaped t)
    (hk : h.isValid k = true ∧ h.kind k ≠ .nil)
    (ed : Edit h k v (h.tableEntries t) (h'.tableEntries t)) : h'.Mapped t := by
  have ht := shape.isTable
  have hkeys : ∀ e ∈ h'.tableEntries t, h.isValid e.1 = true ∧ h.kind e.1 ≠ .nil := by
    intro e he
    rcases ed.key_of_mem he with he | ⟨e', he', hkey⟩
    · rwa [he]
    · rw [← hkey]
      exact m.keys e' he'
  refine ⟨shape, fun e he => ?_, ?_⟩
  · obtain ⟨hv, hnil⟩ := hkeys e he
    by_cases het : e.1 = t
    · rw [het]
      exact ⟨ht.1, by rw [ht.2]; decide⟩
    · have u := sp.unaltered_of_ne het hv
      exact ⟨u.isValid, by rwa [u.kind hv]⟩
  · refine (ed.distinct m.distinct).imp_of_mem fun he he' hn ha => hn ?_
    exact (alike_congr (sp.rank? m.isTable ht (hkeys _ he).1)
      (sp.rank? m.isTable ht (hkeys _ he').1)).1 ha

/-! ### Storing -/

theorem hasKey_eq_true : h.hasKey k q = true ↔ ∃ key, h.key? q = some key ∧ h.Alike key k := by
  rw [hasKey, Option.any_eq_true]
  exact exists_congr fun key => and_congr_right fun _ => beq_compare

/-- The place of a key, among the places of the table and among its entries. -/
theorem Mapped.findKey? (m : h.Mapped t) (hq : h.findKey? t k = some q) :
    q ∈ h.pairSlots t ∧ ∃ e, h.pairAt? q = some e ∧ h.key? q = some e.1 ∧ h.Alike e.1 k := by
  have hmem := List.mem_of_find?_eq_some hq
  have hhas := List.find?_some hq
  obtain ⟨key, hkey, hk⟩ := hasKey_eq_true.1 hhas
  have hpaired := m.paired q hmem
  rw [hkey] at hpaired
  obtain ⟨value, hvalue⟩ := Option.isSome_iff_exists.1 hpaired.symm
  exact ⟨hmem, (key, value), pairAt?_eq_some hkey hvalue, hkey, hk⟩

theorem mem_tableEntries_iff {e : Ref × Ref} :
    e ∈ h.tableEntries t ↔ ∃ q ∈ h.pairSlots t, h.pairAt? q = some e :=
  List.mem_filterMap

theorem key?_of_pairAt? {e : Ref × Ref} (he : h.pairAt? q = some e) : h.key? q = some e.1 := by
  rw [pairAt?] at he
  split at he
  · next key value hkey _ => rw [hkey, ← Option.some.inj he]
  · cases he

/-- Without a place for it, no key of an entry is equal to the given one. -/
theorem not_alike_of_findKey? (hq : h.findKey? t k = none) :
    ∀ e ∈ h.tableEntries t, ¬ h.Alike e.1 k := by
  intro e he hek
  obtain ⟨q, hmem, hpair⟩ := mem_tableEntries_iff.1 he
  exact List.find?_eq_none.1 hq q hmem (hasKey_eq_true.2 ⟨_, key?_of_pairAt? hpair, hek⟩)

/-- The entries around a place with a key equal to `k` have other keys. -/
theorem Mapped.others (m : h.Mapped t) {e : Ref × Ref} {before behind : List (Ref × Ref)}
    (hE : h.tableEntries t = before ++ [e] ++ behind) (hek : h.Alike e.1 k) :
    ∀ e' ∈ before ++ behind, ¬ h.Alike e'.1 k := by
  have hd := m.distinct
  rw [hE, List.append_assoc, List.singleton_append, List.pairwise_append, List.pairwise_cons] at hd
  obtain ⟨_, ⟨hbehind, _⟩, hbefore⟩ := hd
  intro e' he' hk
  rcases List.mem_append.1 he' with he' | he'
  · exact hbefore e' he' e List.mem_cons_self (hk.trans hek.symm)
  · exact hbehind e' he' (hek.trans hk.symm)

theorem Mapped.nodup_pairSlots (wf : h.WellFormed) (m : h.Mapped t) : (h.pairSlots t).Nodup :=
  Heap.nodup_pairSlots (wf.linked t m.isTable).nodup

/-- A value is replaced at its place. -/
theorem edit_setFieldValue (wf : h.WellFormed) (m : h.Mapped t) (hq : h.findKey? t k = some q)
    (hv : h.kind v ≠ .nil) (hs : slotRef v = v) : (h.setFieldValue q (some v)).Shaped t
      ∧ Edit h k v (h.tableEntries t) ((h.setFieldValue q (some v)).tableEntries t) := by
  obtain ⟨hmem, e, hpair, hkey, hek⟩ := m.findKey? hq
  obtain ⟨before, behind, hslots⟩ := List.append_of_mem hmem
  have w := rewrites_setFieldValue wf m.isTable hmem (some v)
  rw [hkey, Option.map_some, hs] at w
  refine ⟨w.shaped hmem m.paired (m.busy.imp id fun hb s hs _ => hb s hs), ?_⟩
  have hE := tableEntries_eq hslots
  have hE' := w.tableEntries (m.nodup_pairSlots wf) hslots
  rw [hpair, Option.toList_some] at hE
  rw [w.pairAt? hmem, Option.toList_some] at hE'
  have hother := m.others hE hek
  rw [hE, hE']
  refine .intro (some e) (some (e.1, v)) hother (by simpa using hek) (fun e' he' => ?_)
    (by simpa using hv)
  obtain rfl := Option.mem_some_iff.1 he'
  exact ⟨hek, rfl, .inr ⟨e, rfl, rfl⟩⟩

/-- A pair is written to a place without a key. -/
theorem Rewrites.exists_insert (w : Rewrites h h' t q (some k) (some v)) (hq : q ∈ h.pairSlots t)
    (hkey : h.key? q = none) (nodup : (h.pairSlots t).Nodup) : ∃ before behind,
      h.tableEntries t = before ++ behind ∧ h'.tableEntries t = before ++ [(k, v)] ++ behind := by
  obtain ⟨before, behind, hslots⟩ := List.append_of_mem hq
  have hE := tableEntries_eq hslots
  have hE' := w.tableEntries nodup hslots
  rw [pairAt?_eq_none hkey, Option.toList_none, List.append_nil] at hE
  rw [w.pairAt? hq, Option.toList_some] at hE'
  exact ⟨_, _, hE, hE'⟩

theorem edit_of_insert (hother : ∀ e ∈ h.tableEntries t, ¬ h.Alike e.1 k) (hv : h.kind v ≠ .nil)
    {before behind E' : List (Ref × Ref)} (hE : h.tableEntries t = before ++ behind)
    (hE' : E' = before ++ [(k, v)] ++ behind) : Edit h k v (h.tableEntries t) E' := by
  have hE₀ : h.tableEntries t = before ++ (none : Option (Ref × Ref)).toList ++ behind := by
    simpa using hE
  rw [hE] at hother
  rw [hE₀, hE']
  refine .intro none (some (k, v)) hother (by simp) (fun e he => ?_) (by simpa using hv)
  obtain rfl := Option.mem_some_iff.1 he
  exact ⟨(alike_equivalence h).refl k, rfl, .inl rfl⟩

/-- A pair is put at a hole, or in a new segment when there is none. -/
theorem edit_insertPair (wf : h.WellFormed) (m : h.Mapped t) (hq : h.findKey? t k = none)
    (hv : h.kind v ≠ .nil) (hks : slotRef k = k) (hvs : slotRef v = v) : Ends (insertPair t k v) h
      (fun _ h' => h'.Shaped t ∧ Edit h k v (h.tableEntries t) (h'.tableEntries t))
      fun _ h' => h' = h := by
  have hother := not_alike_of_findKey? hq
  refine ends_get_bind ?_
  cases hf : h.freePair? t with
  | some q =>
    have hmem := List.mem_of_find?_eq_some hf
    have hkey := List.find?_some hf
    have w := rewrites_writePair wf m.isTable hmem k v
    rw [hks, hvs] at w
    obtain ⟨before, behind, hE, hE'⟩ := w.exists_insert hmem (by simpa using hkey)
      (m.nodup_pairSlots wf)
    exact ends_modify ⟨w.shaped hmem m.paired (m.busy.imp id fun hb s hs _ => hb s hs),
      edit_of_insert hother hv hE hE'⟩
  | none =>
    refine ends_get_bind (ends_bind (newSegment_allocSegment wf.layout) fun s h₁ n => ?_)
    rw [List.getLast?_eq_some_getLast m.chain_ne_nil, Option.getD_some]
    have hlast := (List.dropLast_append_getLast m.chain_ne_nil).symm
    obtain ⟨_, wf₂, ht₂, hc₂⟩ := spares_append wf m.isTable hlast n
    obtain ⟨hslots, hold, hnew⟩ := places_append wf m.isTable hlast n
    refine ends_bind (ends_modify (Q := fun _ h' => h' = h₁.setNext _ s) rfl) fun _ h₂ he => ?_
    rw [← he] at wf₂ ht₂ hc₂ hslots hold hnew
    clear he
    have hE₂ : h.tableEntries t = h₂.tableEntries t := by
      symm
      rw [tableEntries, hslots, List.filterMap_append,
        List.filterMap_eq_nil_iff.2 fun q hq => pairAt?_eq_none (hnew q hq).1, List.append_nil]
      exact List.filterMap_congr fun q hq => pairAt?_congr (hold q hq).1 (hold q hq).2
    have hfirst : ∀ x : SegRef, (⟨x, 0⟩ : PairSlot) ∈ segmentPairs x :=
      fun x => mem_segmentPairs.2 ⟨rfl, Nat.succ_pos _⟩
    have hmem : (⟨s, 0⟩ : PairSlot) ∈ h₂.pairSlots t := by
      rw [hslots]
      exact List.mem_append_right _ (hfirst s)
    have w := rewrites_writePair wf₂ ht₂ hmem k v
    rw [hks, hvs] at w
    obtain ⟨before, behind, hE, hE'⟩ := w.exists_insert hmem (hnew _ (hfirst s)).1
      (nodup_pairSlots (wf₂.linked t ht₂).nodup)
    refine ends_modify ⟨w.shaped hmem (fun q hq => ?_) (.inr fun x hx ne => ⟨⟨x, 0⟩, hfirst x, ?_⟩),
      edit_of_insert hother hv (hE₂.trans hE) hE'⟩
    · rw [hslots] at hq
      rcases List.mem_append.1 hq with hq | hq
      · rw [(hold q hq).1, (hold q hq).2]
        exact m.paired q hq
      · rw [(hnew q hq).1, (hnew q hq).2]
    · -- there was no hole, so every old place has a key
      rw [hc₂, List.mem_append, List.mem_singleton] at hx
      have hq : (⟨x, 0⟩ : PairSlot) ∈ h.pairSlots t :=
        mem_pairSlots_iff.2 ⟨hx.resolve_right ne, Nat.succ_pos _⟩
      have hfull := List.find?_eq_none.1 hf _ hq
      rw [(hold _ hq).1]
      simpa [Option.isSome_iff_ne_none] using hfull

/-- An empty segment is unlinked. The entries are those of the others. -/
theorem shaped_unlinkSegment (wf : h.WellFormed) (ht : h.IsTable t) (hs : s ∈ h.chain t)
    (hempty : ∀ q ∈ segmentPairs s, h.key? q = none)
    (hp : ∀ q ∈ h.pairSlots t, (h.key? q).isSome = (h.fieldValue? q).isSome)
    (hb : ∀ x ∈ h.chain t, x ≠ s → ∃ q ∈ segmentPairs x, (h.key? q).isSome = true) :
    (h.unlinkSegment t s).Shaped t
      ∧ (h.unlinkSegment t s).tableEntries t = h.tableEntries t := by
  have ev : Evolves ∅ Set.univ h (h.unlinkSegment t s) := evolves_unlinkSegment wf ht hs
  have ht' := ev.isTable (Set.notMem_empty t) ht
  rcases chain_unlinkSegment wf ht hs with ⟨hone, he⟩ | ⟨l₁, l₂, hc, hc', hne, hel⟩
  · rw [he]
    exact ⟨⟨ht, List.ne_nil_of_mem hs, hp, .inl (by rw [hone]; rfl)⟩, rfl⟩
  · have hsub : ∀ x ∈ l₁ ++ l₂, x ∈ h.chain t := by
      intro x hx
      rw [hc]
      exact List.mem_append.2 ((List.mem_append.1 hx).imp_right (List.mem_cons_of_mem s))
    have hplace : ∀ x ∈ l₁ ++ l₂, ∀ q ∈ segmentPairs x, (h.unlinkSegment t s).key? q = h.key? q
        ∧ (h.unlinkSegment t s).fieldValue? q = h.fieldValue? q := by
      intro x hx q hq
      obtain ⟨rfl, hpair⟩ := mem_segmentPairs.1 hq
      exact place_congr (hel _ hx) hpair
    refine ⟨⟨ht', by rwa [hc'], fun q hq => ?_, .inr fun x hx => ?_⟩, ?_⟩
    · obtain ⟨hx, hpair⟩ := mem_pairSlots hq
      rw [hc'] at hx
      obtain ⟨hk, hv⟩ := hplace _ hx q (mem_segmentPairs.2 ⟨rfl, hpair⟩)
      rw [hk, hv]
      exact hp q (mem_pairSlots_iff.2 ⟨hsub _ hx, hpair⟩)
    · rw [hc'] at hx
      have hnodup := (wf.linked t ht).nodup
      rw [hc] at hnodup
      have hxs : x ≠ s := by
        rintro rfl
        exact (List.nodup_middle.1 hnodup).notMem hx
      obtain ⟨q, hq, hkey⟩ := hb x (hsub x hx) hxs
      exact ⟨q, hq, by rwa [(hplace x hx q hq).1]⟩
    · -- the places that are gone had no keys
      have hgone : (segmentPairs s).filterMap h.pairAt? = [] :=
        List.filterMap_eq_nil_iff.2 fun q hq => pairAt?_eq_none (hempty q hq)
      have hkept : ∀ l, l ⊆ l₁ ++ l₂ → (l.flatMap segmentPairs).filterMap (h.unlinkSegment t s).pairAt?
          = (l.flatMap segmentPairs).filterMap h.pairAt? := by
        intro l hl
        refine List.filterMap_congr fun q hq => ?_
        obtain ⟨x, hx, hq⟩ := List.mem_flatMap.1 hq
        exact pairAt?_congr (hplace x (hl hx) q hq).1 (hplace x (hl hx) q hq).2
      rw [tableEntries, pairSlots, hc', tableEntries, pairSlots, hc, hkept _ (List.Subset.refl _)]
      simp [List.filterMap_append, hgone]

theorem Shaped.busy_of_ne (m : h.Shaped t) (hs : s ∈ h.chain t) {x : SegRef} (hx : x ∈ h.chain t)
    (ne : x ≠ s) : ∃ q ∈ segmentPairs x, (h.key? q).isSome = true := by
  refine m.busy.elim (fun hone => ?_) fun hb => hb x hx
  obtain ⟨y, hy⟩ := List.length_eq_one_iff.1 hone
  rw [hy, List.mem_singleton] at hs hx
  exact absurd (hx.trans hs.symm) ne

/-- A pair is taken out, and its segment with it when nothing else is in it. -/
theorem edit_erasePair (wf : h.WellFormed) (m : h.Mapped t) (hq : h.findKey? t k = some q)
    (hv : h.kind v = .nil) : (h.erasePair t q).Shaped t
      ∧ Edit h k v (h.tableEntries t) ((h.erasePair t q).tableEntries t) := by
  obtain ⟨hmem, e, hpair, hkey, hek⟩ := m.findKey? hq
  obtain ⟨hseg, _⟩ := mem_pairSlots hmem
  obtain ⟨before, behind, hslots⟩ := List.append_of_mem hmem
  rw [erasePair]
  have w := rewrites_setPair wf m.isTable hmem none none
  generalize (h.setKey q none).setFieldValue q none = g at w
  have hpaired := w.paired rfl m.paired
  have hbusy : ∀ x ∈ g.chain t, x ≠ q.segment → ∃ q ∈ segmentPairs x, (g.key? q).isSome = true := by
    intro x hx ne
    rw [w.chain] at hx
    obtain ⟨q', hq', hkey⟩ := m.busy_of_ne hseg hx ne
    obtain ⟨rfl, hpair'⟩ := mem_segmentPairs.1 hq'
    refine ⟨q', hq', ?_⟩
    rwa [w.key? q' (mem_pairSlots_iff.2 ⟨hx, hpair'⟩), if_neg fun he => ne (by rw [he])]
  have ed : Edit h k v (h.tableEntries t) (g.tableEntries t) := by
    have hkey' : g.key? q = none := by
      rw [w.key? q hmem, if_pos rfl]
      rfl
    have hE := tableEntries_eq hslots
    have hE' := w.tableEntries (m.nodup_pairSlots wf) hslots
    rw [hpair, Option.toList_some] at hE
    rw [pairAt?_eq_none hkey'] at hE'
    have hothers := m.others hE hek
    rw [hE, hE']
    exact .intro (some e) none hothers (by simpa using hek) (by simp) (by simpa using hv)
  have hseg' : q.segment ∈ g.chain t := by rwa [w.chain]
  split
  · next hall =>
    rw [List.all_eq_true] at hall
    obtain ⟨shape, hE⟩ := shaped_unlinkSegment w.wellFormed w.isTable hseg'
      (fun q' hq' => by simpa using hall q' hq') hpaired hbusy
    exact ⟨shape, by rwa [hE]⟩
  · next hall =>
    refine ⟨⟨w.isTable, List.ne_nil_of_mem hseg', hpaired, .inr fun x hx => ?_⟩, ed⟩
    by_cases hx' : x = q.segment
    · subst hx'
      simpa [Option.isSome_iff_ne_none] using hall
    · exact hbusy x hx hx'

/-- Storing is an edit of the entries, or fails and changes nothing. -/
theorem edit_tableSet (wf : h.WellFormed) (tidy : h.Tidy) (m : h.Mapped t)
    (hk : h.kind k ≠ .nil) : Ends (tableSet t k v) h
      (fun _ h' => h'.Mapped t ∧ Edit h k v (h.tableEntries t) (h'.tableEntries t))
      fun _ h' => h' = h := by
  have hslot : ∀ r, h.kind r ≠ .nil → slotRef r = r :=
    fun r hr => slotRef_of_isValid wf.layout (tidy.isValid_of_kind hr)
  have shaped : Ends (tableSet t k v) h
      (fun _ h' => h'.Shaped t ∧ Edit h k v (h.tableEntries t) (h'.tableEntries t))
      fun _ h' => h' = h := by
    have hhead : h.tableHead t ≠ noNext := by
      intro he
      have hl := wf.linked t m.isTable
      rw [he] at hl
      have hend : h.Linked noNext [] := rfl
      exact m.chain_ne_nil (hl.unique hend)
    refine ends_get_bind ?_
    rw [if_neg (by simp [hhead, hk])]
    split
    · next q hq hnil => exact ends_set (edit_erasePair wf m hq (by simpa using hnil))
    · next q hq hnil =>
      have hv : h.kind v ≠ .nil := by simpa using hnil
      exact ends_set (edit_setFieldValue wf m hq hv (hslot v hv))
    · next hq hnil =>
      exact ends_pure ⟨m.toShaped, .refl (not_alike_of_findKey? hq) (by simpa using hnil)⟩
    · next hq hnil =>
      have hv : h.kind v ≠ .nil := by simpa using hnil
      exact edit_insertPair wf m hq hv (hslot k hk) (hslot v hv)
  refine (shaped.and (spares_tableSet wf (fun _ => m.isTable.1) k v)).imp ?_ fun _ _ he => he.1
  rintro _ h' ⟨⟨shape, ed⟩, sp⟩
  exact ⟨m.edited sp shape ⟨tidy.isValid_of_kind hk, hk⟩ ed, ed⟩

/-! ### Tables that are left alone -/

theorem Shaped.unaltered (m : h.Shaped t) (u : Unaltered h h' t) : h'.Shaped t := by
  have hrows := u.rows
  have hlen := length_chain_of_slots u.slots
  refine ⟨u.isTable m.isTable, ?_, ?_, ?_⟩
  · exact fun hnil => m.chain_ne_nil (List.length_eq_zero_iff.1 (by rw [← hlen, hnil]; rfl))
  · have hp : ∀ p ∈ (h.pairSlots t).map fun q => (h.key? q, h.fieldValue? q),
        p.1.isSome = p.2.isSome := by simpa using m.paired
    rw [← u.map_pairSlots] at hp
    simpa using hp
  · rw [hlen]
    refine m.busy.imp id fun hb => ?_
    have hb : ∀ row ∈ (h.chain t).map h.elements, ∃ p ∈ rowPairs row, p.1.isSome = true := by
      simpa [← map_segmentPairs] using hb
    rw [← hrows] at hb
    simpa [← map_segmentPairs] using hb

/-- A map is still one when it is left alone and its keys have their values. -/
theorem Mapped.unaltered (m : h.Mapped t) (u : Unaltered h h' t)
    (hkeys : ∀ e ∈ h.tableEntries t, h'.isValid e.1 = true ∧ h'.value e.1 = h.value e.1) :
    h'.Mapped t := by
  refine ⟨m.toShaped.unaltered u, fun e he => ?_, ?_⟩
  · rw [u.tableEntries] at he
    obtain ⟨hv, hvalue⟩ := hkeys e he
    refine ⟨hv, ?_⟩
    rw [kind_eq_kind_value hv, hvalue, ← kind_eq_kind_value (m.keys e he).1]
    exact (m.keys e he).2
  · rw [u.tableEntries]
    refine m.distinct.imp_of_mem fun he he' hn ha => hn ?_
    exact (alike_congr (by rw [(hkeys _ he).2]) (by rw [(hkeys _ he').2])).1 ha

/-! ### Every table that can be made -/

/-- A table without elements has no entries, -/
theorem tableEntries_of_empty (hs : h.arraySlots t = List.replicate slotsPerSegment none) :
    (∀ q ∈ h.pairSlots t, h.key? q = none ∧ h.fieldValue? q = none) ∧ h.tableEntries t = [] := by
  have hnone : ∀ q ∈ h.pairSlots t, h.key? q = none ∧ h.fieldValue? q = none := by
    intro q hq
    obtain ⟨hseg, hp⟩ := mem_pairSlots hq
    have hel : ∀ i < slotsPerSegment, h.element? q.segment i = none := by
      intro i hi
      have hmem : h.element? q.segment i ∈ h.arraySlots t :=
        List.mem_flatMap.2 ⟨q.segment, hseg, List.mem_map.2 ⟨i, List.mem_range.2 hi, rfl⟩⟩
      rw [hs] at hmem
      exact List.eq_of_mem_replicate hmem
    exact ⟨hel _ (PairSlot.key_lt hp).1, hel _ (PairSlot.key_lt hp).2⟩
  exact ⟨hnone, List.filterMap_eq_nil_iff.2 fun q hq => pairAt?_eq_none (hnone q hq).1⟩

/-- and is a map. -/
theorem mapped_of_empty (ht : h.IsTable t)
    (hs : h.arraySlots t = List.replicate slotsPerSegment none) : h.Mapped t := by
  have hlen := length_chain_of_empty hs
  obtain ⟨hnone, hE⟩ := tableEntries_of_empty hs
  refine ⟨⟨ht, fun hnil => by simp [hnil] at hlen, fun q hq => ?_, .inl hlen⟩, ?_, ?_⟩
  · rw [(hnone q hq).1, (hnone q hq).2]
  · simp [hE]
  · simp [hE]

theorem mapped_tableNew (wf : h.WellFormed) :
    Ends tableNew h (fun t h' => h'.Mapped t) fun _ _ => True :=
  ((newObject_allocTable (A := Set.univ) wf).and (arraySlots_allocTable wf)).imp
    (fun _ _ ht => mapped_of_empty ht.1.2 ht.2) fun _ _ _ => trivial

/-- The tables that can be made: a new one, and what is left of one by storing, or by a call that is
not about it and leaves its keys with their values. -/
inductive TableBuilt : Heap → Ref → Prop
  | new {h h' : Heap} {t : Ref} : Built h → tableNew h = .ok t h' → TableBuilt h' t
  | set {h : Heap} {t k v : Ref} : TableBuilt h t → TableBuilt (after (tableSet t k v) h) t
  | elsewhere {h : Heap} {t : Ref} {q : Request} : TableBuilt h t → q.Allowed h → q.Leaves h t →
    (∀ e ∈ h.tableEntries t, (q.perform h).isValid e.1 = true
      ∧ (q.perform h).value e.1 = h.value e.1) → TableBuilt (q.perform h) t

theorem eq_ok_of_ends {x : HeapM Unit} (hx : Ends x h (fun _ h' => h' = h) fun _ _ => False) :
    x h = .ok () h := by
  cases hs : x h with
  | ok u h' => rw [hx.of_ok hs]
  | error e h' => exact (hx.of_error hs).elim

/-- A nil key is not stored. -/
theorem tableSet_of_nil (hk : h.kind k = .nil) : tableSet t k v h = .ok () h := by
  refine eq_ok_of_ends (ends_get_bind ?_)
  rw [if_pos (.inr hk)]
  exact ends_pure rfl

/-- A key that is not there is not erased. -/
theorem tableSet_of_absent (hq : h.findKey? t k = none) (hv : h.kind v = .nil) :
    tableSet t k v h = .ok () h := by
  refine eq_ok_of_ends (ends_get_bind ?_)
  rw [hq, decide_eq_true hv]
  split <;> exact ends_pure rfl

theorem TableBuilt.mapped (hb : TableBuilt h t) : Built h ∧ h.Mapped t := by
  induction hb with
  | new hb hnew =>
    refine ⟨?_, (mapped_tableNew hb.wellFormed.1).of_ok hnew⟩
    have hb' := hb.perform (q := .tableNew) trivial
    rwa [Request.perform, after, hnew] at hb'
  | @set h t k v _ ih =>
    obtain ⟨hb, m⟩ := ih
    obtain ⟨wf, tidy⟩ := hb.wellFormed
    refine ⟨hb.perform (q := .tableSet t k v) trivial, ?_⟩
    by_cases hk : h.kind k = .nil
    · rw [after, tableSet_of_nil hk]
      exact m
    · refine after_of_ends (P := fun h' => h'.Mapped t) ((edit_tableSet wf tidy m hk).imp
        (fun _ _ hm => hm.1) ?_)
      rintro _ _ rfl
      exact m
  | elsewhere _ allowed leaves hkeys ih =>
    obtain ⟨hb, m⟩ := ih
    obtain ⟨wf, tidy⟩ := hb.wellFormed
    exact ⟨hb.perform allowed, m.unaltered (leaves.unaltered wf tidy allowed m.isTable.1) hkeys⟩

/-! ### Tables as maps -/

/-- The heap `h'` comes from `h` by storing `v` under `k` in the table `t`. -/
structure Stores (h h' : Heap) (t k v : Ref) : Prop where
  /-- Under a key equal to `k` there is `v` now, or nothing when it is nil; under every other key
  there is what there was. -/
  get : ∀ k', h.kind k' ≠ .nil → h'.tableGet? t k' = if h.compare k' k = .eq then
    (if h.kind v = .nil then none else some v) else h.tableGet? t k'
  /-- A new key makes the table larger by one, -/
  size_new : h.tableGet? t k = none → h.kind v ≠ .nil → h'.tableSize t = h.tableSize t + 1
  /-- an erased key smaller by one, -/
  size_erased : h.tableGet? t k ≠ none → h.kind v = .nil → h'.tableSize t + 1 = h.tableSize t
  /-- and its size stays otherwise. -/
  size_same : (h.tableGet? t k = none ↔ h.kind v = .nil) → h'.tableSize t = h.tableSize t
  /-- No other object is altered. -/
  others : Spares {t} h h'

theorem Mapped.stores (tidy : h.Tidy) (m : h.Mapped t) (m' : h'.Mapped t)
    (ed : Edit h k v (h.tableEntries t) (h'.tableEntries t)) (sp : Spares {t} h h')
    (hkeys : ∀ e ∈ h'.tableEntries t, h.isValid e.1 = true) : Stores h h' t k v := by
  refine ⟨fun k' hk' => ?_, fun hget hv => ?_, fun hget hv => ?_, fun hiff => ?_, sp⟩
  · have hstored : ∀ w, h'.tableGet? t k' = some w
        ↔ ∃ e ∈ h'.tableEntries t, h.Alike e.1 k' ∧ e.2 = w := by
      intro w
      rw [m'.tableGet?_eq_some_iff]
      refine exists_congr fun e => and_congr_right fun he => and_congr_left fun _ => ?_
      exact alike_congr (sp.rank? m.isTable m'.isTable (hkeys e he))
        (sp.rank? m.isTable m'.isTable (tidy.isValid_of_kind hk'))
    refine Option.ext fun w => ?_
    rw [hstored]
    split
    · next hk =>
      rw [ed.stored_of_alike hk]
      by_cases hv : h.kind v = .nil <;> simp [hv]
    · next hk => rw [ed.stored_of_not_alike hk, m.tableGet?_eq_some_iff]
  · have hlen := ed.length_of_absent (m.tableGet?_eq_none_iff.1 hget)
    rw [if_neg hv] at hlen
    rw [tableSize, tableSize, hlen]
  · have hlen := ed.length_of_stored (by simpa using mt m.tableGet?_eq_none_iff.2 hget)
    rw [if_pos hv] at hlen
    rw [tableSize, tableSize]
    omega
  · rw [tableSize, tableSize]
    by_cases hget : h.tableGet? t k = none
    · have hlen := ed.length_of_absent (m.tableGet?_eq_none_iff.1 hget)
      rw [if_pos (hiff.1 hget)] at hlen
      omega
    · have hlen := ed.length_of_stored (by simpa using mt m.tableGet?_eq_none_iff.2 hget)
      rw [if_neg (mt hiff.2 hget)] at hlen
      exact Nat.add_right_cancel hlen

/-- **Tables are maps.** Of a table that can be made, no two keys are equal, no segment is empty
unless it is the only one, and the entries are exactly what can be looked up, once each. Storing
does what it says on maps or fails for want of room and leaves every byte as it was; a nil key and
the erasure of a key that is not there change nothing. -/
theorem tables_are_maps (hb : TableBuilt h t) :
    (h.tableEntries t).Pairwise (fun e e' => h.compare e.1 e'.1 ≠ .eq)
    ∧ (∀ s ∈ h.chain t, h.chain t = [s] ∨ ∃ e, some e ∈ h.elements s)
    ∧ (∀ k v, h.isValid k = true → h.kind k ≠ .nil → h.isValid v = true →
        Ends (tableSet t k v) h (fun _ h' => Stores h h' t k v)
          fun e h' => e = .heapExhausted ∧ h' = h)
    ∧ (h.tableEntries t).Nodup
    ∧ (∀ k v, h.tableGet? t k = some v
        ↔ ∃ k₀, (k₀, v) ∈ h.tableEntries t ∧ h.compare k₀ k = .eq)
    ∧ (∀ k v, h.kind k = .nil → tableSet t k v h = .ok () h)
    ∧ ∀ k v, h.kind v = .nil → h.tableGet? t k = none → tableSet t k v h = .ok () h := by
  obtain ⟨hb, m⟩ := hb.mapped
  obtain ⟨wf, tidy⟩ := hb.wellFormed
  refine ⟨m.distinct, fun s hs => ?_, fun k v hkv hk hv => ?_, ?_, fun k v => ?_,
    fun k v => tableSet_of_nil, fun k v hv hget => ?_⟩
  · refine m.busy.imp (fun hone => ?_) fun hb => ?_
    · obtain ⟨s', hs'⟩ := List.length_eq_one_iff.1 hone
      rw [hs', List.mem_singleton] at hs
      rw [hs', hs]
    · obtain ⟨q, hq, hkey⟩ := hb s hs
      obtain ⟨rfl, hpair⟩ := mem_segmentPairs.1 hq
      obtain ⟨e, he⟩ := Option.isSome_iff_exists.1 hkey
      exact ⟨e, List.mem_map.2 ⟨_, List.mem_range.2 (PairSlot.key_lt hpair).1, he⟩⟩
  · refine ((edit_tableSet wf tidy m hk).and (spares_tableSet wf (fun _ => m.isTable.1) k v)).imp ?_
      fun e h' he => ⟨rfl, he.1⟩
    rintro _ h' ⟨⟨m', ed⟩, sp⟩
    refine m.stores tidy m' ed sp fun e he => ?_
    rcases ed.key_of_mem he with rfl | ⟨e', he', hkey⟩
    · exact hkv
    · rw [← hkey]
      exact (m.keys e' he').1
  · refine m.distinct.imp fun hn he => hn ?_
    rw [he]
    exact (alike_equivalence h).refl _
  · rw [m.tableGet?_eq_some_iff]
    constructor
    · rintro ⟨e, he, hek, rfl⟩
      exact ⟨e.1, he, hek⟩
    · rintro ⟨k₀, he, hek⟩
      exact ⟨_, he, hek, rfl⟩
  · cases hq : h.findKey? t k with
    | none => exact tableSet_of_absent hq hv
    | some q =>
      obtain ⟨_, e, hpair, _, hek⟩ := m.findKey? hq
      have he : e ∈ h.tableEntries t :=
        mem_tableEntries_iff.2 ⟨q, List.mem_of_find?_eq_some hq, hpair⟩
      exact absurd hek (m.tableGet?_eq_none_iff.1 hget e he)

/-- A new table, the integers five and seven, and the fraction five. -/
def numbers : Heap :=
  Request.perform (Request.perform (Request.perform (after tableNew (make 64))
    (.allocValue (.int 5))) (.allocValue (.int 7))) (.allocValue (.float ⟨0x4500⟩))

theorem tables_are_maps_numbers : TableBuilt numbers 0
    ∧ (after (tableSet 0 1 2) numbers).tableGet? 0 3 = some 2 := by
  have hmake : Built (make 64) := .make (by decide)
  have hnew : TableBuilt (after tableNew (make 64)) 0 := by
    have hanswer : (match tableNew (make 64) with
      | .ok r _ => r == 0
      | .error _ _ => false) = true := by decide +kernel
    split at hanswer
    · next r h' hok =>
      obtain rfl : r = 0 := eq_of_beq hanswer
      rw [after, hok]
      exact .new hmake hok
    · cases hanswer
  have hb : TableBuilt numbers 0 := by
    refine .elsewhere (.elsewhere (.elsewhere hnew ?_ trivial ?_) ?_ trivial ?_) ?_ trivial ?_
    any_goals exact fun t => Value.noConfusion
    -- the table has no entries yet
    all_goals
      intro e he
      exact absurd he (List.eq_nil_iff_forall_not_mem.1 (by decide +kernel) e)
  have hstore := (tables_are_maps hb).2.2.1 1 2 (by decide +kernel) (by decide +kernel)
    (by decide +kernel)
  have hok : tableSet 0 1 2 numbers = .ok () _ := eq_ok_of_answers (by decide +kernel)
  have hget := (hstore.of_ok hok).get 3 (by decide +kernel)
  rw [if_pos (by decide +kernel), if_neg (by decide +kernel)] at hget
  refine ⟨hb, ?_⟩
  rw [after, hok]
  exact hget

end Heap

end SwarmVm
