import SwarmVm.Proofs.Heap.Spared
import SwarmVm.Proofs.Machine.Lasting

/-!
# Objects that are held

Whoever has an index in his hands wants it to stand for the object that it stood for when he got
it. That is, the object is still there, and it has its value; of a table one can ask only that it is
a table, since entries come and go. Work inside a call and changes of the store leave it so, and a
collection leaves it so if it leaves the object at all.

An object that is permanent as well is not taken by any collection. New values and copies become
such objects, and what was permanent before stays permanent.

## Main definitions

* `Heap.Denotes` — an index that stands for a value
* `Heap.Owns` — one that does so for good, being permanent
* `Heap.Acquired`, `Heap.Replaced` — copies that were made permanent

## Main results

* `Heap.Denotes.keeps`, `Heap.Denotes.grows`, `Heap.Denotes.collect` — what leaves a value alone
* `Heap.Owns.collect` — collections leave permanent objects alone
* `Machine.acquired_ownedCopy`, `Machine.replaced_replaceOwned` — copies
* `Machine.lasting_denotes`, `Machine.lasting_robot` — standing for a value lasts, and so does the
  number of the robot
-/

namespace SwarmVm

namespace Heap

variable {h h' : Heap} {r r' c : Ref} {v w : Value}

/-- The object `r` is there, and it has the value `v`, unless that is a table: then it is a table,
whatever its entries are. -/
structure Denotes (h : Heap) (r : Ref) (v : Value) : Prop where
  /-- There is an object. -/
  isValid : h.isValid r = true
  /-- It is of the right kind. -/
  kind : h.kind r = v.kind
  /-- It has the value. -/
  value : v.kind ≠ .table → h.value r = v

theorem denotes_value (hv : h.isValid r = true) : h.Denotes r (h.value r) :=
  ⟨hv, kind_eq_kind_value hv, fun _ => rfl⟩

theorem denotes_of_value (hv : h.value r = v) (hn : v ≠ .nil) : h.Denotes r v :=
  ⟨(kind_of_value hv hn).1, (kind_of_value hv hn).2, fun _ => hv⟩

namespace Denotes

theorem keeps (d : h.Denotes r v) (k : Keeps h h') : h'.Denotes r v where
  isValid := k.isValid r d.isValid
  kind := (k.kind r d.isValid).trans d.kind
  value hk := (k.scalar r d.isValid (by rwa [d.kind])).trans (d.value hk)

theorem grows (d : h.Denotes r v) (g : Grows h h') : h'.Denotes r v := by
  have u := g.spares.unaltered d.isValid
  exact ⟨u.isValid, (u.kind d.isValid).trans d.kind, fun hk => u.value.trans (d.value hk)⟩

/-- What an index stood for is what it stood for in another heap, if it does so in both. -/
theorem of_denotes (d' : h'.Denotes r v) (d : h.Denotes r v) : h'.Denotes r (h.value r) where
  isValid := d'.isValid
  kind := d'.kind.trans (d.kind.symm.trans (kind_eq_kind_value d.isValid))
  value hk := by
    have hkind : v.kind = (h.value r).kind := d.kind.symm.trans (kind_eq_kind_value d.isValid)
    rw [← hkind] at hk
    exact (d'.value hk).trans (d.value hk).symm

/-- A collection takes the object or leaves it as it is. -/
theorem collect (d : h.Denotes r v) (l : h.Layout) {roots : List Ref}
    (hv : (h.collect roots).2.isValid r = true) : (h.collect roots).2.Denotes r v where
  isValid := hv
  kind := by
    rw [Heap.kind, header_collect l hv]
    exact d.kind
  value hk := (value_collect l hv).trans (d.value hk)

end Denotes

/-- The object `r` has the value `v` and is permanent. -/
structure Owns (h : Heap) (r : Ref) (v : Value) : Prop extends Denotes h r v where
  /-- The object is permanent. -/
  permanent : (h.header r).permanent = true

namespace Owns

theorem keeps (o : h.Owns r v) (k : Keeps h h') : h'.Owns r v :=
  ⟨o.toDenotes.keeps k, (k.permanent r o.isValid).trans o.permanent⟩

/-- Permanent objects are among the roots. -/
theorem collect (o : h.Owns r v) (l : h.Layout) (roots : List Ref) :
    (h.collect roots).2.Owns r v := by
  have hv : (h.collect roots).2.isValid r = true :=
    (isValid_collect_iff l).2 ⟨o.isValid, r, o.isValid, .inr o.permanent, .refl⟩
  refine ⟨o.toDenotes.collect l hv, ?_⟩
  rw [header_collect l hv]
  exact o.permanent

theorem setPermanent_of_ne (o : h.Owns r v) (wf : h.WellFormed) (ne : r ≠ r') (permanent : Bool) :
    (h.setPermanent r' permanent).Owns r v := by
  refine ⟨o.toDenotes.grows (grows_setPermanent wf r' permanent), ?_⟩
  rw [header_setPermanent wf.layout, if_neg fun hc => ne hc.1]
  exact o.permanent

end Owns

theorem Denotes.makePermanent (d : h.Denotes r v) (wf : h.WellFormed) :
    (h.makePermanent r).Owns r v := by
  refine ⟨d.grows (grows_setPermanent wf r true), ?_⟩
  rw [Heap.makePermanent, header_setPermanent wf.layout, if_pos ⟨rfl, d.isValid⟩]

/-- No object loses its permanence when one becomes permanent. -/
theorem Owns.makePermanent (o : h.Owns r v) (wf : h.WellFormed) (r' : Ref) :
    (h.makePermanent r').Owns r v := by
  by_cases ne : r = r'
  · rw [← ne]
    exact o.toDenotes.makePermanent wf
  · exact o.setPermanent_of_ne wf ne true

/-! ### Permanent copies -/

/-- The heap `h'` has a permanent object `c` with the value `v`. It is new, unless `v` is a table,
and what was permanent before still is. -/
structure Acquired (h : Heap) (v : Value) (c : Ref) (h' : Heap) : Prop where
  /-- No object is altered. -/
  grows : Grows h h'
  /-- Permanent objects stay permanent. -/
  keeps : ∀ {r w}, h.Owns r w → h'.Owns r w
  /-- The object is permanent and has the value. -/
  owns : h'.Owns c v
  /-- Its slot was free. -/
  fresh : v.kind ≠ .table → h.isValid c = false

theorem acquired_allocValue (wf : h.WellFormed) (ht : ∀ t, v ≠ .table t) : Ends (allocValue v) h
    (fun c h' => Acquired h v c (h'.makePermanent c)) fun _ h' => h' = h := by
  refine ((grows_allocValue wf ht).and (newObject_allocValue (A := Set.univ) wf ht
    fun _ _ _ _ => Set.mem_univ _)).imp (fun c h' hn => ?_) fun _ _ he => he.1
  obtain ⟨⟨g, hv, hvalue⟩, n, -⟩ := hn
  have k : Keeps h h' := .of_evolves n.evolves
  have d : h'.Denotes c v := by
    rw [← hvalue]
    exact denotes_value hv
  exact ⟨g.trans (grows_setPermanent g.wellFormed c true),
    fun o => (o.keeps k).makePermanent g.wellFormed c, d.makePermanent g.wellFormed,
    fun _ => n.free⟩

/-- The copy of a table is the table itself. -/
theorem acquired_copy (wf : h.WellFormed) (r : Ref) : Ends (copy r) h
    (fun c h' => Acquired h (h.value r) c (h'.makePermanent c)
      ∧ ((h.value r).kind = .table → c = r)) fun _ h' => h' = h := by
  refine ends_get_bind ?_
  cases hv : h.value r with
  | table t =>
    have d : h.Denotes r (.table t) := by
      rw [← hv]
      exact denotes_value (kind_of_value hv (by simp)).1
    exact ends_pure ⟨⟨grows_setPermanent wf r true, fun o => o.makePermanent wf r,
      d.makePermanent wf, fun hk => absurd rfl hk⟩, fun _ => rfl⟩
  | _ =>
    refine (acquired_allocValue wf (by simp)).imp (fun c h' ac => ⟨ac, ?_⟩) fun _ _ => id
    intro hk
    cases hk

/-- The owner of `old` takes `new`, and has the object `c` afterwards. If `new` is another object,
then `c` is a permanent copy of it, and `old` is not permanent any more. -/
inductive Replaced (h : Heap) (old new : Ref) : Ref → Heap → Prop
  /-- The owner keeps the object. -/
  | same : new = old → Replaced h old new old h
  /-- The owner has another one. -/
  | other {c : Ref} {h' : Heap} : new ≠ old → Acquired h (h.value new) c h' →
    ((h.value new).kind = .table → c = new) → Replaced h old new c (h'.clearPermanent old)

theorem Replaced.grows {old new : Ref} (re : h.Replaced old new c h') (wf : h.WellFormed) :
    Grows h h' := by
  cases re with
  | same _ => exact .refl wf
  | other _ ac _ => exact ac.grows.trans (grows_setPermanent ac.grows.wellFormed old false)

theorem grows_foldl_clearPermanent (wf : h.WellFormed) (entries : List StigmergyEntry) :
    Grows h (entries.foldl (fun h e => h.clearPermanent e.value) h) := by
  induction entries generalizing h with
  | nil => exact .refl wf
  | cons e rest ih =>
    have g := grows_setPermanent wf e.value false
    exact g.trans (ih g.wellFormed)

end Heap

/-! ### Machines -/

namespace Machine

open Heap (Acquired Replaced)

variable {F : Type} {m : Machine F}

theorem ends_modifyHeap {f : Heap → Heap} {Q : Unit → Machine F → Prop}
    {E : Halt → Machine F → Prop} (hQ : Q () { m with heap := f m.heap }) :
    Ends (modifyHeap f) m Q E := ends_iff.2 hQ

theorem acquired_ownedCopy (wf : m.heap.WellFormed) (r : Ref) : Ends (ownedCopy r) m
    (fun c m' => m' = { m with heap := m'.heap } ∧ Acquired m.heap (m.value r) c m'.heap
      ∧ ((m.value r).kind = .table → c = r)) fun _ m' => m' = m := by
  refine ends_bind ((ends_onHeap (Heap.acquired_copy wf r)).imp (fun _ _ => id) ?_) ?_
  · rintro _ _ ⟨_, h, rfl, rfl⟩
    rfl
  · rintro c _ ⟨h, ⟨ac, hc⟩, rfl⟩
    refine ends_bind (ends_modifyHeap (Q := fun _ m' => m' = { m with heap := h.makePermanent c })
      rfl) fun _ m' he => ends_pure ?_
    rw [he]
    exact ⟨rfl, ac, hc⟩

theorem replaced_replaceOwned (wf : m.heap.WellFormed) (old new : Ref) :
    Ends (replaceOwned old new) m
      (fun c m' => m' = { m with heap := m'.heap } ∧ Replaced m.heap old new c m'.heap)
      fun _ m' => m' = m := by
  rw [replaceOwned]
  split
  · next he => exact ends_pure ⟨rfl, .same he⟩
  · next ne =>
    refine ends_bind (acquired_ownedCopy wf new) fun c m₁ h => ?_
    obtain ⟨same, ac, hc⟩ := h
    refine ends_bind (ends_modifyHeap
      (Q := fun _ m' => m' = { m₁ with heap := m₁.heap.clearPermanent old }) rfl)
      fun _ m' he => ends_pure ?_
    rw [he]
    refine ⟨?_, .other ne ac hc⟩
    rw [same]

/-- No machine changes its number. -/
instance lasting_robot (robot : RobotId) : Lasting (fun m : Machine F => m.robot = robot) where
  aside as hr := as.robot.trans hr
  store p version m hm hr := by
    refine ends_get_bind ?_
    cases m.stigmergy.entries[p]? with
    | none => exact ends_modify hr
    | some old =>
      refine ends_bind ((replaced_replaceOwned hm.wellFormed old.value version.value).imp
        (fun _ _ => id) fun _ _ he => ?_) fun c m₁ h => ends_modify ?_
      · rw [he]
        exact hr
      · rw [h.1]
        exact hr
  insert key version m hm hr := by
    refine ends_get_bind (ends_bind ((acquired_ownedCopy hm.wellFormed version.value).imp
      (fun _ _ => id) fun _ _ he => ?_) fun c m₁ h => ends_modify ?_)
    · rw [he]
      exact hr
    · rw [h.1]
      exact hr
  reset _ hr := ends_modify hr

/-- An index goes on to stand for a value while no collection takes the object. -/
instance lasting_denotes (r : Ref) (v : Value) :
    Lasting (fun m : Machine F => m.heap.Denotes r v) where
  aside as d := d.keeps as.keeps
  store p version m hm d := by
    refine ends_get_bind ?_
    cases m.stigmergy.entries[p]? with
    | none => exact ends_modify d
    | some old =>
      refine ends_bind ((replaced_replaceOwned hm.wellFormed old.value version.value).imp
        (fun _ _ => id) fun _ _ he => ?_) fun c m₁ h => ends_modify ?_
      · rw [he]
        exact d
      · exact d.grows (h.2.grows hm.wellFormed)
  insert key version m hm d := by
    refine ends_get_bind (ends_bind ((acquired_ownedCopy hm.wellFormed version.value).imp
      (fun _ _ => id) fun _ _ he => ?_) fun c m₁ h => ends_modify ?_)
    · rw [he]
      exact d
    · exact d.grows h.2.1.grows
  reset {m} hm d := by
    refine ends_modify (d.grows ?_)
    rw [← Array.foldl_toList]
    exact Heap.grows_foldl_clearPermanent hm.wellFormed _

end Machine

end SwarmVm
