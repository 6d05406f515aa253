import SwarmVm.Proofs.Heap.Maps

/-!
# Tables that are filled in order

A pair with a new key goes to the first hole of a table, so in general nothing can be said about the
order of the entries. But as long as nothing is erased, there are no holes before a pair. A table
that is filled under new keys is a list, to which every store appends a pair.

Here the keys are strings and integers, as they are when host code fills a table. Two such objects
are equal only if they have the same value, so the list of these values says which keys are new.

## Main definitions

* `Heap.Furnished` — a map whose values are there
* `Heap.TableKept` — the tables that can be made, while their keys and values stay
* `Heap.contents` — the values of the keys and the objects under them, in order
* `Heap.Roll` — a table that has been filled in order

## Main results

* `Heap.TableKept.furnished` — every table that can be made is furnished
* `Heap.Roll.tableSet` — a pair with a new key comes last
* `Heap.Roll.spared` — a roll stays what it is when other tables are altered
-/

namespace SwarmVm

namespace Value

variable {v w : Value}

/-- Strings and integers. -/
def IsLabel : Value → Prop
  | .int _ | .string _ => True
  | _ => False

/-- Labels are equal only if they are the same. -/
theorem IsLabel.eq_of_rank? (hv : v.IsLabel) (hw : w.IsLabel) (he : v.rank? = w.rank?) :
    v = w := by
  cases w with
  | string id => exact eq_string_of_rank? he
  | int j =>
    cases v with
    | int i =>
      simp only [rank?, Option.some.injEq, Prod.mk.injEq, true_and] at he
      have hij := Numeric.Single.orderKey_ofInt_injOn (natAbs_toInt_lt i) (natAbs_toInt_lt j) he
      rw [Int16.toInt_inj.1 hij]
    | string id => simp [rank?] at he
    | _ => exact hv.elim
  | _ => exact hw.elim

theorem IsLabel.exists_rank? (hv : v.IsLabel) : ∃ rank, v.rank? = some rank := by
  cases v with
  | int i => exact ⟨_, rfl⟩
  | string id => exact ⟨_, rfl⟩
  | _ => exact hv.elim

theorem IsLabel.ne_nil (hv : v.IsLabel) : v ≠ .nil := by
  rintro rfl
  exact hv

theorem IsLabel.kind_ne_nil (hv : v.IsLabel) : v.kind ≠ .nil := by
  cases v with
  | int i => exact Kind.noConfusion
  | string id => exact Kind.noConfusion
  | _ => exact hv.elim

end Value

namespace Heap

variable {h h' : Heap} {a b t k v : Ref} {x : Value} {q : PairSlot} {X : Set Ref}

theorem alike_iff_of_isLabel (ha : (h.value a).IsLabel) (hb : (h.value b).IsLabel) :
    h.Alike a b ↔ h.value a = h.value b := by
  rw [alike_iff]
  constructor
  · rintro (rfl | ⟨rank, hra, hrb⟩)
    · rfl
    · exact ha.eq_of_rank? hb (hra.trans hrb.symm)
  · intro he
    obtain ⟨rank, hrank⟩ := hb.exists_rank?
    exact .inr ⟨rank, he ▸ hrank, hrank⟩

theorem isValid_of_isLabel (hl : (h.value k).IsLabel) : h.isValid k = true :=
  (kind_of_value rfl hl.ne_nil).1

theorem kind_ne_nil_of_isLabel (hl : (h.value k).IsLabel) : h.kind k ≠ .nil := by
  rw [(kind_of_value rfl hl.ne_nil).2]
  exact hl.kind_ne_nil

/-- A label is no table. -/
theorem ne_of_isLabel (hl : (h.value k).IsLabel) (ht : h.IsTable t) : k ≠ t := by
  rintro rfl
  obtain ⟨tv, htv, -⟩ := ht.value
  rw [htv] at hl
  exact hl

/-! ### Tables with their values -/

/-- A map whose values are there. -/
structure Furnished (h : Heap) (t : Ref) : Prop extends h.Mapped t where
  /-- The values are there, and are not nil. -/
  values : ∀ e ∈ h.tableEntries t, h.isValid e.2 = true ∧ h.kind e.2 ≠ .nil

/-- An object stays when tables are altered, if it was there. -/
theorem Spares.isValid_and_kind (sp : Spares X h h') (hX : ∀ a ∈ X, h'.IsTable a)
    (hv : h.isValid v = true ∧ h.kind v ≠ .nil) : h'.isValid v = true ∧ h'.kind v ≠ .nil := by
  by_cases hmem : v ∈ X
  · have ht := hX v hmem
    exact ⟨ht.1, by rw [ht.2]; decide⟩
  · have u := sp v hmem hv.1
    exact ⟨u.isValid, by rw [u.kind hv.1]; exact hv.2⟩

/-- Storing adds no value but the given one. -/
theorem Edit.value_of_mem {E E' : List (Ref × Ref)} (ed : Edit h k v E E') {e : Ref × Ref}
    (he : e ∈ E') : h.kind v ≠ .nil ∧ e.2 = v ∨ e ∈ E := by
  obtain @⟨_, _, _, _, _, _, hnew, hnil⟩ := ed
  rcases mem_append_toList.1 he with he | he
  · exact .inr (mem_append_toList.2 (.inl he))
  · exact .inl ⟨hnil.1 (Option.isSome_of_mem he), (hnew e he).2.1⟩

theorem Furnished.edited (ft : h.Furnished t) (tidy : h.Tidy) (m' : h'.Mapped t)
    (sp : Spares {t} h h') (ed : Edit h k v (h.tableEntries t) (h'.tableEntries t)) :
    h'.Furnished t := by
  have hX : ∀ a ∈ ({t} : Set Ref), h'.IsTable a := fun a ha => ha ▸ m'.isTable
  refine ⟨m', fun e he => sp.isValid_and_kind hX ?_⟩
  rcases ed.value_of_mem he with ⟨hv, rfl⟩ | he
  · exact ⟨tidy.isValid_of_kind hv, hv⟩
  · exact ft.values e he

/-- Storing leaves the values there. -/
theorem Furnished.tableSet (wf : h.WellFormed) (tidy : h.Tidy) (ft : h.Furnished t)
    (hk : h.kind k ≠ .nil) (v : Ref) :
    Ends (tableSet t k v) h (fun _ h' => h'.Furnished t) fun _ h' => h' = h := by
  refine ((edit_tableSet wf tidy ft.toMapped hk).and (spares_tableSet wf (fun _ => ft.isTable.1) k
    v)).imp ?_ fun _ _ he => he.1
  rintro _ h' ⟨⟨m', ed⟩, sp⟩
  exact ft.edited tidy m' sp ed

/-- What is said of the keys and the values of a table that is left alone. -/
def KeepsEntries (h h' : Heap) (t : Ref) : Prop := ∀ e ∈ h.tableEntries t,
  (h'.isValid e.1 = true ∧ h'.value e.1 = h.value e.1)
    ∧ h'.isValid e.2 = true ∧ h'.kind e.2 = h.kind e.2

theorem Furnished.unaltered (ft : h.Furnished t) (u : Unaltered h h' t)
    (kept : KeepsEntries h h' t) : h'.Furnished t := by
  refine ⟨ft.toMapped.unaltered u fun e he => (kept e he).1, fun e he => ?_⟩
  rw [u.tableEntries] at he
  obtain ⟨-, hv, hkind⟩ := kept e he
  exact ⟨hv, by rw [hkind]; exact (ft.values e he).2⟩

/-- A table stays furnished in a heap that grows. -/
theorem Furnished.grows (ft : h.Furnished t) (g : Grows h h') : h'.Furnished t := by
  refine ft.unaltered (g.spares.unaltered ft.isTable.1) fun e he => ?_
  have uk := g.spares.unaltered (ft.keys e he).1
  have uv := g.spares.unaltered (ft.values e he).1
  exact ⟨⟨uk.isValid, uk.value⟩, uv.isValid, uv.kind (ft.values e he).1⟩

/-- The tables that can be made, as long as their keys and values are there: a new one, and what is
left of one by storing, or by a call that is not about it. -/
inductive TableKept : Heap → Ref → Prop
  | new {h h' : Heap} {t : Ref} : Built h → tableNew h = .ok t h' → TableKept h' t
  | set {h : Heap} {t k v : Ref} : TableKept h t → TableKept (after (tableSet t k v) h) t
  | elsewhere {h : Heap} {t : Ref} {q : Request} : TableKept h t → q.Allowed h → q.Leaves h t →
    KeepsEntries h (q.perform h) t → TableKept (q.perform h) t

theorem TableKept.built (kt : TableKept h t) : TableBuilt h t := by
  induction kt with
  | new hb hnew => exact .new hb hnew
  | set _ ih => exact .set ih
  | elsewhere _ allowed leaves kept ih =>
    exact .elsewhere ih allowed leaves fun e he => (kept e he).1

/-- **Every table that can be made is furnished.** -/
theorem TableKept.furnished (kt : TableKept h t) : h.Furnished t := by
  induction kt with
  | new hb hnew =>
    have fresh := ((mapped_tableNew hb.wellFormed.1).and (arraySlots_allocTable hb.wellFormed.1))
    obtain ⟨m, hs⟩ := fresh.of_ok hnew
    refine ⟨m, ?_⟩
    rw [(tableEntries_of_empty hs).2]
    simp
  | @set h t k v kt ih =>
    obtain ⟨wf, tidy⟩ := kt.built.mapped.1.wellFormed
    by_cases hk : h.kind k = .nil
    · rw [after, tableSet_of_nil hk]
      exact ih
    · refine after_of_ends (P := fun h' => h'.Furnished t) ((ih.tableSet wf tidy hk v).imp
        (fun _ _ => id) ?_)
      rintro _ _ rfl
      exact ih
  | elsewhere kt allowed leaves kept ih =>
    obtain ⟨wf, tidy⟩ := kt.built.mapped.1.wellFormed
    exact ih.unaltered (leaves.unaltered wf tidy allowed ih.isTable.1) kept

/-! ### Filling -/

/-- No place without a key is before one that has a key. -/
def Gapless (h : Heap) (t : Ref) : Prop :=
  ((h.pairSlots t).map h.key?).Pairwise fun key key' => key = none → key' = none

theorem gapless_of_split (before behind : List PairSlot)
    (hs : h.pairSlots t = before ++ behind) (hbefore : ∀ q ∈ before, h.key? q ≠ none)
    (hbehind : ∀ q ∈ behind, h.key? q = none) : h.Gapless t := by
  rw [Gapless, List.pairwise_map, hs, List.pairwise_append]
  refine ⟨?_, ?_, fun q hq _ _ hnone => absurd hnone (hbefore q hq)⟩
  · exact List.pairwise_of_forall_mem_list fun q hq _ _ hnone => absurd hnone (hbefore q hq)
  · exact List.pairwise_of_forall_mem_list fun _ _ q hq _ => hbehind q hq

theorem Gapless.unaltered (gl : h.Gapless t) (u : Unaltered h h' t) : h'.Gapless t := by
  have hkeys := congrArg (List.map Prod.fst) u.map_pairSlots
  rw [List.map_map, List.map_map] at hkeys
  have hsame : (h'.pairSlots t).map h'.key? = (h.pairSlots t).map h.key? := hkeys
  rw [Gapless, hsame]
  exact gl

/-- A pair that is written to the first place without a key comes behind all others. -/
theorem Rewrites.fills (w : Rewrites h h' t q (some k) (some v)) (nodup : (h.pairSlots t).Nodup)
    {before behind : List PairSlot} (hs : h.pairSlots t = before ++ q :: behind)
    (hbefore : ∀ q' ∈ before, h.key? q' ≠ none) (hbehind : ∀ q' ∈ q :: behind, h.key? q' = none) :
    h'.Gapless t ∧ h'.tableEntries t = h.tableEntries t ++ [(k, v)] := by
  have hq : q ∈ h.pairSlots t := by simp [hs]
  have hrest : ∀ q' ∈ behind, h.key? q' = none :=
    fun q' hq' => hbehind q' (List.mem_cons_of_mem q hq')
  have hother : ∀ q' ∈ before ++ behind, h'.key? q' = h.key? q' := by
    intro q' hq'
    rw [hs] at nodup
    have hne : q' ≠ q := by
      rintro rfl
      exact (List.nodup_middle.1 nodup).notMem hq'
    have hmem : q' ∈ h.pairSlots t := by
      rw [hs]
      simp only [List.mem_append, List.mem_cons] at hq' ⊢
      exact hq'.imp_right .inr
    rw [w.key? q' hmem, if_neg hne]
  constructor
  · refine gapless_of_split (before ++ [q]) behind ?_ (fun q' hq' => ?_)
      fun q' hq' => ?_
    · rw [w.pairSlots, hs, List.append_assoc, List.singleton_append]
    · rcases List.mem_append.1 hq' with hq' | hq'
      · rw [hother q' (List.mem_append_left _ hq')]
        exact hbefore q' hq'
      · rw [List.mem_singleton.1 hq', w.key? q hq, if_pos rfl]
        exact Option.some_ne_none k
    · rw [hother q' (List.mem_append_right _ hq')]
      exact hrest q' hq'
  · have hnone : behind.filterMap h.pairAt? = [] :=
      List.filterMap_eq_nil_iff.2 fun q' hq' => pairAt?_eq_none (hrest q' hq')
    rw [w.tableEntries nodup hs, tableEntries_eq hs, w.pairAt? hq, hnone,
      pairAt?_eq_none (hbehind q List.mem_cons_self)]
    simp

/-- A pair is put behind all others. -/
theorem appends_insertPair (wf : h.WellFormed) (m : h.Mapped t) (gl : h.Gapless t)
    (hks : slotRef k = k) (hvs : slotRef v = v) : Ends (insertPair t k v) h
      (fun _ h' => h'.Gapless t ∧ h'.tableEntries t = h.tableEntries t ++ [(k, v)])
      fun _ h' => h' = h := by
  refine ends_get_bind ?_
  cases hf : h.freePair? t with
  | some q =>
    obtain ⟨hkey, before, behind, hs, hbefore⟩ := List.find?_eq_some_iff_append.1 hf
    have w := rewrites_writePair wf m.isTable (List.mem_of_find?_eq_some hf) k v
    rw [hks, hvs] at w
    refine ends_modify (w.fills (m.nodup_pairSlots wf) hs (fun q' hq' => ?_) fun q' hq' => ?_)
    · simpa [Option.isSome_iff_ne_none] using hbefore q' hq'
    · have hnone : h.key? q = none := by simpa using hkey
      have hgl := gl
      rw [Gapless, List.pairwise_map, hs, List.pairwise_append, List.pairwise_cons] at hgl
      rcases List.mem_cons.1 hq' with rfl | hq'
      · exact hnone
      · exact hgl.2.1.1 q' hq' hnone
  | none =>
    refine ends_get_bind (ends_bind (newSegment_allocSegment wf.layout) fun s h₁ n => ?_)
    rw [List.getLast?_eq_some_getLast m.chain_ne_nil, Option.getD_some]
    have hlast := (List.dropLast_append_getLast m.chain_ne_nil).symm
    obtain ⟨_, wf₂, ht₂, hc₂⟩ := spares_append wf m.isTable hlast n
    obtain ⟨hslots, hold, hnew⟩ := places_append wf m.isTable hlast n
    refine ends_bind (ends_modify (Q := fun _ h' => h' = h₁.setNext _ s) rfl) fun _ h₂ he => ?_
    rw [← he] at wf₂ ht₂ hc₂ hslots hold hnew
    clear he
    have hE₂ : h₂.tableEntries t = h.tableEntries t := by
      rw [tableEntries, hslots, List.filterMap_append,
        List.filterMap_eq_nil_iff.2 fun q hq => pairAt?_eq_none (hnew q hq).1, List.append_nil]
      exact List.filterMap_congr fun q hq => pairAt?_congr (hold q hq).1 (hold q hq).2
    -- the first place of the new segment is the first one without a key
    obtain ⟨behind, hfirst⟩ : ∃ behind, segmentPairs s = ⟨s, 0⟩ :: behind := ⟨_, rfl⟩
    have hs : h₂.pairSlots t = h.pairSlots t ++ ⟨s, 0⟩ :: behind := by rw [hslots, hfirst]
    have w := rewrites_writePair wf₂ ht₂ (q := ⟨s, 0⟩) (by simp [hs]) k v
    rw [hks, hvs] at w
    have nodup := Heap.nodup_pairSlots (wf₂.linked t ht₂).nodup
    rw [← hE₂]
    refine ends_modify (w.fills nodup hs (fun q' hq' => ?_) fun q' hq' => ?_)
    · rw [(hold q' hq').1]
      simpa using List.find?_eq_none.1 hf q' hq'
    · exact (hnew q' (hfirst ▸ hq')).1

/-- Storing under a key that is not there puts the pair behind all others. -/
theorem appends_tableSet (wf : h.WellFormed) (tidy : h.Tidy) (m : h.Mapped t) (gl : h.Gapless t)
    (hk : h.kind k ≠ .nil) (hv : h.kind v ≠ .nil) (absent : h.findKey? t k = none) :
    Ends (tableSet t k v) h
      (fun _ h' => h'.Gapless t ∧ h'.tableEntries t = h.tableEntries t ++ [(k, v)])
      fun _ h' => h' = h := by
  have hslot : ∀ r, h.kind r ≠ .nil → slotRef r = r :=
    fun r hr => slotRef_of_isValid wf.layout (tidy.isValid_of_kind hr)
  refine ends_get_bind ?_
  split
  · next hcond =>
    refine absurd hcond (not_or.2 ⟨fun he => ?_, hk⟩)
    have hl := wf.linked t m.isTable
    rw [he] at hl
    have hend : h.Linked noNext [] := rfl
    exact m.chain_ne_nil (hl.unique hend)
  · rw [absent, decide_eq_false hv]
    exact appends_insertPair wf m gl (hslot k hk) (hslot v hv)

/-! ### Rolls -/

/-- The values of the keys of a table and the objects under them, in the order of their places. -/
def contents (h : Heap) (t : Ref) : List (Value × Ref) :=
  (h.tableEntries t).map fun e => (h.value e.1, e.2)

/-- A table that has been filled in order, under labels. -/
structure Roll (h : Heap) (t : Ref) : Prop extends h.Furnished t where
  /-- Nothing has been erased. -/
  gapless : h.Gapless t
  /-- The keys are strings and integers. -/
  labels : ∀ e ∈ h.tableEntries t, (h.value e.1).IsLabel

namespace Roll

/-- What is found under a label is what is listed under it. -/
theorem tableGet?_eq_some_iff (roll : h.Roll t) (hx : (h.value k).IsLabel) :
    h.tableGet? t k = some v ↔ (h.value k, v) ∈ h.contents t := by
  rw [roll.toMapped.tableGet?_eq_some_iff, contents, List.mem_map]
  refine exists_congr fun e => and_congr_right fun he => ?_
  rw [alike_iff_of_isLabel (roll.labels e he) hx, Prod.mk.injEq]

/-- A roll stays what it is when other tables are altered. -/
theorem spared (roll : h.Roll t) (sp : Spares X h h') (hX : ∀ a ∈ X, h.IsTable a ∧ h'.IsTable a)
    (ht : t ∉ X) : h'.Roll t ∧ h'.contents t = h.contents t := by
  have u := sp t ht roll.isTable.1
  have hkeys : ∀ e ∈ h.tableEntries t, Unaltered h h' e.1 := fun e he => by
    refine sp e.1 (fun hmem => ?_) (roll.keys e he).1
    exact ne_of_isLabel (roll.labels e he) (hX e.1 hmem).1 rfl
  refine ⟨⟨⟨roll.toMapped.unaltered u fun e he => ⟨(hkeys e he).isValid, (hkeys e he).value⟩,
    fun e he => ?_⟩, roll.gapless.unaltered u, fun e he => ?_⟩, ?_⟩
  · rw [u.tableEntries] at he
    exact sp.isValid_and_kind (fun a ha => (hX a ha).2) (roll.values e he)
  · rw [u.tableEntries] at he
    rw [(hkeys e he).value]
    exact roll.labels e he
  · rw [contents, u.tableEntries]
    exact List.map_congr_left fun e he => by rw [(hkeys e he).value]

theorem grows (roll : h.Roll t) (g : Grows h h') : h'.Roll t ∧ h'.contents t = h.contents t :=
  roll.spared g.spares (by simp) (Set.notMem_empty t)

/-- A key that is not listed is not found. -/
theorem findKey?_eq_none (roll : h.Roll t) (hk : (h.value k).IsLabel)
    (new : h.value k ∉ (h.contents t).map Prod.fst) : h.findKey? t k = none := by
  cases hf : h.findKey? t k with
  | none => rfl
  | some q =>
    obtain ⟨hq, e, hpair, -, hek⟩ := roll.toMapped.findKey? hf
    have he : e ∈ h.tableEntries t := mem_tableEntries_iff.2 ⟨q, hq, hpair⟩
    rw [alike_iff_of_isLabel (roll.labels e he) hk] at hek
    refine absurd ?_ new
    rw [contents, List.map_map]
    exact List.mem_map.2 ⟨e, he, hek⟩

/-- **A pair with a new key comes last.** -/
theorem tableSet (wf : h.WellFormed) (tidy : h.Tidy) (roll : h.Roll t) (hk : (h.value k).IsLabel)
    (new : h.value k ∉ (h.contents t).map Prod.fst) (hv : h.kind v ≠ .nil) :
    Ends (tableSet t k v) h (fun _ h' => h'.Roll t ∧ Spares {t} h h'
      ∧ h'.contents t = h.contents t ++ [(h.value k, v)]) fun _ h' => h' = h := by
  have hnil := kind_ne_nil_of_isLabel hk
  refine (((edit_tableSet wf tidy roll.toMapped hnil).and (spares_tableSet wf
    (fun _ => roll.isTable.1) k v)).and (appends_tableSet wf tidy roll.toMapped roll.gapless hnil hv
      (roll.findKey?_eq_none hk new))).imp ?_ fun _ _ he => he.2
  rintro _ h' ⟨⟨⟨m', ed⟩, sp⟩, gl, hE⟩
  have hvalue : ∀ {key}, (h.value key).IsLabel → h'.value key = h.value key := fun hl =>
    (sp.unaltered_of_ne (ne_of_isLabel hl roll.isTable) (isValid_of_isLabel hl)).value
  refine ⟨⟨roll.toFurnished.edited tidy m' sp ed, gl, fun e he => ?_⟩, sp, ?_⟩
  · rw [hE, List.mem_append, List.mem_singleton] at he
    rcases he with he | rfl
    · rw [hvalue (roll.labels e he)]
      exact roll.labels e he
    · rw [hvalue hk]
      exact hk
  · rw [contents, hE, List.map_append, List.map_singleton, hvalue hk]
    refine congrArg (· ++ [(h.value k, v)]) (List.map_congr_left fun e he => ?_)
    rw [hvalue (roll.labels e he)]

end Roll

theorem roll_of_empty (ht : h.IsTable t)
    (hs : h.arraySlots t = List.replicate slotsPerSegment none) :
    h.Roll t ∧ h.contents t = [] := by
  obtain ⟨hnone, hE⟩ := tableEntries_of_empty hs
  refine ⟨⟨⟨mapped_of_empty ht hs, by simp [hE]⟩, ?_, by simp [hE]⟩, by rw [contents, hE]; rfl⟩
  exact gapless_of_split [] _ rfl (by simp) fun q hq => (hnone q hq).1

/-- A new table is a roll without entries. -/
theorem roll_tableNew (wf : h.WellFormed) : Ends tableNew h
    (fun t h' => h'.Roll t ∧ h'.contents t = []) fun _ _ => True :=
  ((newObject_allocTable (A := Set.univ) wf).and (arraySlots_allocTable wf)).imp
    (fun _ _ ht => roll_of_empty ht.1.2 ht.2) fun _ _ _ => trivial

end Heap

end SwarmVm
