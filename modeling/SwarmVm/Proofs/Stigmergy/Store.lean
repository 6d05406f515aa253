import SwarmVm.Machine.Stigmergy
import SwarmVm.Proofs.Machine.Instructions
import SwarmVm.Proofs.Heap.Spared
import SwarmVm.Proofs.Stigmergy.Outbox

/-!
# The shared store, key by key

A store is a list of entries, found by their position. Seen from outside it is a function from keys
to updates: who wrote, at which clock, and the value. `Machine.replica?` is that function. Putting a
version in the entry of a key changes the function at the key and nowhere else, and so does adding
an entry; sending an entry does not change it.

Making the copy that an entry owns takes an object from the heap, and alters none that is there.

## Main definitions

* `Update`, `Machine.replica?` — the store as a function
* `Machine.Storing` — a machine whose entries own objects that are there
* `Machine.Emits` — what a machine has sent

## Main results

* `Machine.ends_storeVersion`, `Machine.ends_insertVersion` — the two ways to change the store
* `Machine.ends_sendEntry` — sending
-/

namespace SwarmVm

/-! ### Entries -/

@[simp] theorem StigmergyEntry.version_value (e : StigmergyEntry) : e.version.value = e.value := rfl

/-- An update of a key, as robots tell each other. -/
structure Update where
  /-- The robot that made it. -/
  robot : RobotId
  /-- The clock of the key. -/
  clock : UInt8
  /-- The value. -/
  value : Value
deriving DecidableEq, Repr

/-- The message that carries an update. -/
def Update.message (op : StigmergyOp) (key : NameId) (u : Update) : Message Value :=
  .stigmergy op u.robot key u.value u.clock

namespace Stigmergy

variable {s s' : Stigmergy} {key k : NameId} {p : Nat} {e : StigmergyEntry}

/-- The keys, in order. -/
def keys (s : Stigmergy) : List NameId := s.entries.toList.map (·.key)

/-- The entry of a key. -/
def lookup? (s : Stigmergy) (key : NameId) : Option StigmergyEntry :=
  (s.position? key).bind fun p => s.entries[p]?

/-- The position of a key depends on the keys only. -/
theorem position?_eq (s : Stigmergy) (key : NameId) :
    s.position? key = s.keys.findIdx? (· == key) := by
  rw [keys, List.findIdx?_map, ← List.findIdx?_toArray, Array.toArray_toList]
  rfl

/-- There is an entry at the position of a key, and it has the key. -/
theorem exists_of_position? (hp : s.position? key = some p) :
    ∃ e, s.entries[p]? = some e ∧ e.key = key := by
  rw [position?, Array.findIdx?_eq_some_iff_getElem] at hp
  obtain ⟨hlt, he, -⟩ := hp
  exact ⟨_, Array.getElem?_eq_getElem hlt, by simpa using he⟩

theorem lookup?_of_position? (hp : s.position? key = some p) : s.lookup? key = s.entries[p]? := by
  rw [lookup?, hp, Option.bind_some]

theorem lookup?_of_none (hp : s.position? key = none) : s.lookup? key = none := by
  rw [lookup?, hp, Option.bind_none]

theorem mem_of_lookup? (he : s.lookup? key = some e) : e ∈ s.entries := by
  rw [lookup?, Option.bind_eq_some_iff] at he
  obtain ⟨p, -, he⟩ := he
  exact Array.mem_of_getElem? he

/-- A key stays where it is when keys are only added. -/
theorem position?_of_prefix (hk : s.keys <+: s'.keys) (hp : s.position? key = some p) :
    s'.position? key = some p := by
  obtain ⟨rest, hk⟩ := hk
  rw [position?_eq] at hp
  rw [position?_eq, ← hk, List.findIdx?_append, hp, Option.some_or]

/-- The entry at a position is replaced. -/
theorem getElem?_replace {old : StigmergyEntry} (hs : s.entries[p]? = some old)
    (e : StigmergyEntry) (q : Nat) :
    (s.replace p e).entries[q]? = if p = q then some e else s.entries[q]? := by
  rw [replace, Array.getElem?_setIfInBounds]
  by_cases hq : p = q
  · subst hq
    rw [if_pos rfl, if_pos (Array.getElem?_eq_some_iff.1 hs).1, if_pos rfl]
  · rw [if_neg hq, if_neg hq]

/-- If the new entry has the key of the old one, the keys stay. -/
theorem keys_replace {old : StigmergyEntry} (hs : s.entries[p]? = some old)
    (he : e.key = old.key) : (s.replace p e).keys = s.keys := by
  refine List.ext_getElem? fun q => ?_
  rw [keys, keys, List.getElem?_map, List.getElem?_map, Array.getElem?_toList,
    Array.getElem?_toList, getElem?_replace hs]
  split
  · next hq => rw [← hq, hs, Option.map_some, Option.map_some, he]
  · rfl

/-- An entry is replaced by one of the same key. -/
theorem lookup?_replace (hp : s.position? key = some p) (e : StigmergyEntry) (he : e.key = key) :
    (s.replace p e).keys = s.keys ∧ (s.replace p e).lookup? key = some e
      ∧ ∀ k ≠ key, (s.replace p e).lookup? k = s.lookup? k := by
  obtain ⟨old, hs, hold⟩ := exists_of_position? hp
  have hget := getElem?_replace hs e
  have hkeys : (s.replace p e).keys = s.keys := keys_replace hs (he.trans hold.symm)
  have hpos : ∀ k, (s.replace p e).position? k = s.position? k := by
    intro k
    rw [position?_eq, position?_eq, hkeys]
  refine ⟨hkeys, ?_, fun k hk => ?_⟩
  · rw [lookup?_of_position? ((hpos key).trans hp), hget, if_pos rfl]
  · rw [lookup?, lookup?, hpos]
    cases hq : s.position? k with
    | none => rfl
    | some q =>
      have hne : p ≠ q := by
        rintro rfl
        obtain ⟨e', hs', he'⟩ := exists_of_position? hq
        rw [hs, Option.some.injEq] at hs'
        exact hk (by rw [← he', ← hs', hold])
      rw [Option.bind_some, Option.bind_some, hget, if_neg hne]

/-- A key is added behind the others. -/
theorem keys_add (s : Stigmergy) (e : StigmergyEntry) : (s.add e).keys = s.keys ++ [e.key] := by
  rw [keys, add, Array.toList_push, List.map_append, List.map_singleton, keys]

/-- An entry is added. -/
theorem lookup?_add (hp : s.position? key = none) (e : StigmergyEntry) (he : e.key = key) :
    (s.add e).keys = s.keys ++ [key] ∧ (s.add e).position? key = some ((s.add e).size - 1)
      ∧ (s.add e).lookup? key = some e ∧ ∀ k ≠ key, (s.add e).lookup? k = s.lookup? k := by
  have hkeys : (s.add e).keys = s.keys ++ [key] := by
    rw [keys_add, he]
  have hlen : s.keys.length = s.entries.size := by
    rw [keys, List.length_map, Array.length_toList]
  have hsize : (s.add e).size - 1 = s.entries.size := by
    rw [size, add, Array.size_push, Nat.add_sub_cancel]
  have hlast : (s.add e).position? key = some ((s.add e).size - 1) := by
    rw [position?_eq] at hp ⊢
    rw [hkeys, List.findIdx?_append, hp, Option.none_or, hsize]
    simp [hlen]
  refine ⟨hkeys, hlast, ?_, fun k hk => ?_⟩
  · rw [lookup?_of_position? hlast, hsize]
    exact Array.getElem?_push_size
  · have hpos : (s.add e).position? k = s.position? k := by
      have hne : (key == k) = false := by simpa using Ne.symm hk
      rw [position?_eq, position?_eq, hkeys, List.findIdx?_append]
      simp [List.findIdx?_singleton, hne]
    rw [lookup?, lookup?, hpos]
    cases hq : s.position? k with
    | none => rfl
    | some q =>
      obtain ⟨e', hs', -⟩ := exists_of_position? hq
      rw [Option.bind_some, Option.bind_some, add, Array.getElem?_push,
        if_neg (Array.getElem?_eq_some_iff.1 hs').1.ne]

end Stigmergy

namespace Machine

open Heap (Grows)

variable {F α : Type} {m m' m'' : Machine F} {key k : NameId} {v : Version} {p : Nat}
  {e : StigmergyEntry}

/-- A version with its value. -/
def update (m : Machine F) (v : Version) : Update := ⟨v.robot, v.clock, m.value v.value⟩

@[simp] theorem update_robot (m : Machine F) (v : Version) : (m.update v).robot = v.robot := rfl

@[simp] theorem update_clock (m : Machine F) (v : Version) : (m.update v).clock = v.clock := rfl

@[simp] theorem update_value (m : Machine F) (v : Version) :
    (m.update v).value = m.value v.value := rfl

/-- What the replica holds under a key. -/
def replica? (m : Machine F) (key : NameId) : Option Update :=
  (m.stigmergy.lookup? key).map fun e => m.update e.version

theorem replica?_eq_none_iff : m.replica? key = none ↔ m.stigmergy.position? key = none := by
  rw [replica?, Option.map_eq_none_iff]
  refine ⟨fun he => ?_, Stigmergy.lookup?_of_none⟩
  cases hp : m.stigmergy.position? key with
  | none => rfl
  | some p =>
    obtain ⟨e, hs, -⟩ := Stigmergy.exists_of_position? hp
    rw [Stigmergy.lookup?_of_position? hp, hs] at he
    cases he

theorem replica?_of_position? (hp : m.stigmergy.position? key = some p)
    (hs : m.stigmergy.entries[p]? = some e) : m.replica? key = some (m.update e.version) := by
  rw [replica?, Stigmergy.lookup?_of_position? hp, hs, Option.map_some]

/-! ### Machines that store -/

/-- The heap is well formed, free slots are tidy, and the values of the entries are there. -/
structure Storing (m : Machine F) : Prop where
  /-- The heap is well formed. -/
  wellFormed : m.heap.WellFormed
  /-- Free slots are tidy. -/
  tidy : m.heap.Tidy
  /-- The entries have values. -/
  entries : ∀ e ∈ m.stigmergy.entries, m.heap.isValid e.value = true

/-- What is under a key stays, when its entry does and the heap grows. -/
theorem replica?_of_grows (hm : m.Storing) (g : Grows m.heap m'.heap)
    (he : m'.stigmergy.lookup? k = m.stigmergy.lookup? k) : m'.replica? k = m.replica? k := by
  rw [replica?, replica?, he]
  cases hk : m.stigmergy.lookup? k with
  | none => rfl
  | some e =>
    have hv := hm.entries e (Stigmergy.mem_of_lookup? hk)
    have hvalue : m'.value e.value = m.value e.value := (g.spares.unaltered hv).value
    simp only [Option.map_some, update, StigmergyEntry.version, hvalue]

/-- `m'` comes from `m` by work on the key: what is under other keys is the same, and so are the
functions of the script. -/
structure WorksOn (key : NameId) (m m' : Machine F) : Prop where
  /-- The machine stores. -/
  storing : m'.Storing
  /-- The heap has grown. -/
  grows : Grows m.heap m'.heap
  /-- The other keys are as they were. -/
  others : ∀ k ≠ key, m'.replica? k = m.replica? k
  /-- It is the same robot. -/
  robot : m'.robot = m.robot
  /-- The script settles conflicts as before, -/
  onConflict : m'.stigmergy.onConflict = m.stigmergy.onConflict
  /-- and is told of lost ones as before. -/
  onConflictLost : m'.stigmergy.onConflictLost = m.stigmergy.onConflictLost
  /-- The activation record is the same. -/
  locals : m'.locals = m.locals

namespace WorksOn

theorem refl (hm : m.Storing) : WorksOn key m m :=
  ⟨hm, .refl hm.wellFormed, fun _ _ => rfl, rfl, rfl, rfl, rfl⟩

theorem trans (w : WorksOn key m m') (w' : WorksOn key m' m'') : WorksOn key m m'' where
  storing := w'.storing
  grows := w.grows.trans w'.grows
  others k hk := (w'.others k hk).trans (w.others k hk)
  robot := w'.robot.trans w.robot
  onConflict := w'.onConflict.trans w.onConflict
  onConflictLost := w'.onConflictLost.trans w.onConflictLost
  locals := w'.locals.trans w.locals

end WorksOn

/-- The heap grows, and the store stays. -/
theorem worksOn_of_heap (key : NameId) (hm : m.Storing) {h : Heap} (g : Grows m.heap h) :
    WorksOn key m { m with heap := h } where
  storing := ⟨g.wellFormed, g.tidy hm.tidy, fun e he =>
    (g.spares.unaltered (hm.entries e he)).isValid⟩
  grows := g
  others _ _ := replica?_of_grows hm g rfl
  robot := rfl
  onConflict := rfl
  onConflictLost := rfl
  locals := rfl

/-! ### Changes -/

/-- `m'` is `m` with a heap that has grown, in which `r'` has the value of `r`. -/
structure Copied (m : Machine F) (r r' : Ref) (m' : Machine F) : Prop where
  /-- Nothing but the heap is different. -/
  same : m' = { m with heap := m'.heap }
  /-- The heap has grown. -/
  grows : Grows m.heap m'.heap
  /-- The copy is there. -/
  isValid : m'.heap.isValid r' = true
  /-- It has the value of the original. -/
  value : m'.value r' = m.value r

/-- Whether an object is permanent is no part of its value. -/
theorem Copied.setPermanent {r r' : Ref} (c : Copied m r r' m') (r'' : Ref) (permanent : Bool) :
    Ends (modifyHeap (·.setPermanent r'' permanent)) m' (fun _ => Copied m r r')
      fun _ _ => True := by
  have g := Heap.grows_setPermanent c.grows.wellFormed r'' permanent
  have u := g.spares.unaltered c.isValid
  refine ends_iff.2 ⟨?_, c.grows.trans g, u.isValid, u.value.trans c.value⟩
  rw [c.same]

theorem ends_ownedCopy (wf : m.heap.WellFormed) (r : Ref) :
    Ends (ownedCopy r) m (Copied m r) fun _ _ => True := by
  have copied : Ends (onHeap (Heap.copy r)) m (Copied m r) fun _ _ => True := by
    refine (ends_onHeap (Heap.grows_copy wf r)).imp ?_ fun _ _ _ => trivial
    rintro r' m' ⟨h, ⟨g, hv, hvalue⟩, rfl⟩
    exact ⟨rfl, g, hv, hvalue⟩
  exact ends_bind copied fun r' m₁ c => ends_bind (c.setPermanent r' true) fun _ _ c' => ends_pure c'

theorem ends_replaceOwned (wf : m.heap.WellFormed) {old : Ref} (hv : m.heap.isValid old = true)
    (new : Ref) : Ends (replaceOwned old new) m (Copied m new) fun _ _ => True := by
  rw [replaceOwned]
  split
  · next he => exact ends_pure ⟨rfl, .refl wf, hv, by rw [he]⟩
  · exact ends_bind (ends_ownedCopy wf new) fun r' m₁ c =>
      ends_bind (c.setPermanent old false) fun _ _ c' => ends_pure c'

/-- The store is `s`, whose entries own the copy besides what they owned. -/
theorem Copied.worksOn {r r' : Ref} (c : Copied m r r' m') (hm : m.Storing) {s : Stigmergy}
    (owned : ∀ e ∈ s.entries, e.value = r' ∨ e ∈ m.stigmergy.entries)
    (others : ∀ k ≠ key, s.lookup? k = m.stigmergy.lookup? k)
    (onConflict : s.onConflict = m.stigmergy.onConflict)
    (onConflictLost : s.onConflictLost = m.stigmergy.onConflictLost) :
    WorksOn key m { m' with stigmergy := s } := by
  refine ⟨⟨c.grows.wellFormed, c.grows.tidy hm.tidy, fun e he => ?_⟩, c.grows, fun k hk => ?_,
    ?_, onConflict, onConflictLost, ?_⟩
  · rcases owned e he with hr | he'
    · rw [hr]
      exact c.isValid
    · exact (c.grows.spares.unaltered (hm.entries e he')).isValid
  · exact replica?_of_grows hm c.grows (others k hk)
  · rw [c.same]
  · rw [c.same]

/-- A version is put in the entry of a key. -/
theorem ends_storeVersion (hm : m.Storing) (hp : m.stigmergy.position? key = some p)
    (v : Version) : Ends (storeVersion p v) m (fun _ m' => WorksOn key m m'
      ∧ m'.replica? key = some (m.update v) ∧ m'.stigmergy.position? key = some p
      ∧ m'.outbox = m.outbox) fun _ _ => True := by
  obtain ⟨e, hs, hkey⟩ := Stigmergy.exists_of_position? hp
  refine ends_get_bind ?_
  rw [hs]
  refine ends_bind (ends_replaceOwned hm.wellFormed (hm.entries e (Array.mem_of_getElem? hs))
    v.value) fun r m₁ c => ends_modify ?_
  have hst : m₁.stigmergy = m.stigmergy := by rw [c.same]
  rw [hst]
  obtain ⟨hkeys, hlookup, hothers⟩ := Stigmergy.lookup?_replace hp
    (v.entry e.key r (m.value v.value)) hkey
  refine ⟨c.worksOn hm (fun e' he' => ?_) hothers rfl rfl, ?_, ?_, ?_⟩
  · rcases Array.mem_or_eq_of_mem_setIfInBounds he' with he' | rfl
    · exact .inr he'
    · exact .inl rfl
  · rw [replica?, hlookup, Option.map_some]
    exact congrArg (fun value => some (Update.mk v.robot v.clock value)) c.value
  · exact Stigmergy.position?_of_prefix ⟨[], by rw [List.append_nil, hkeys]⟩ hp
  · rw [c.same]

/-- An entry is added for a key. -/
theorem ends_insertVersion (hm : m.Storing) (hp : m.stigmergy.position? key = none) (v : Version) :
    Ends (insertVersion key v) m (fun _ m' => WorksOn key m m'
      ∧ m'.replica? key = some (m.update v)
      ∧ m'.stigmergy.position? key = some (m'.stigmergy.size - 1)
      ∧ m'.outbox = m.outbox) fun _ _ => True := by
  refine ends_get_bind (ends_bind (ends_ownedCopy hm.wellFormed v.value) fun r m₁ c =>
    ends_modify ?_)
  have hst : m₁.stigmergy = m.stigmergy := by rw [c.same]
  rw [hst]
  obtain ⟨-, hpos, hlookup, hothers⟩ := Stigmergy.lookup?_add hp
    (v.entry key r (m.value v.value)) rfl
  refine ⟨c.worksOn hm (fun e' he' => ?_) hothers rfl rfl, ?_, hpos, ?_⟩
  · rcases Array.mem_push.1 he' with he' | rfl
    · exact .inr he'
    · exact .inl rfl
  · rw [replica?, hlookup, Option.map_some]
    exact congrArg (fun value => some (Update.mk v.robot v.clock value)) c.value
  · rw [c.same]

/-! ### Sending -/

/-- `m'` has sent the message: it is in the outbox, and besides it only what was there before. -/
structure Emits (x : Message Value) (m m' : Machine F) : Prop where
  /-- The message is there. -/
  mem : x ∈ m'.outbox.toList
  /-- Besides it only what was there before. -/
  old : ∀ y ∈ m'.outbox.toList, y = x ∨ y ∈ m.outbox.toList
  /-- The outbox is bounded. -/
  bounded : m'.outbox.queue.Bounded

/-- Only the outbox counts. -/
theorem Emits.congr {x : Message Value} {m₀ m₁ : Machine F} (em : Emits x m m')
    (start : m.outbox = m₀.outbox) (stop : m₁.outbox = m'.outbox) : Emits x m₀ m₁ where
  mem := stop ▸ em.mem
  old := stop ▸ start ▸ em.old
  bounded := stop ▸ em.bounded

theorem ends_send (ho : m.outbox.queue.Bounded) (x : Message Value) : Ends (send x) m
    (fun _ m' => Emits x m m'
      ∧ m' = { m with stack := m'.stack, outbox := m'.outbox, log := m'.log }) fun _ _ => False := by
  obtain ⟨hb, hmem, hold⟩ := Outbox.mem_append ho x
  refine ends_get_bind ?_
  rcases happ : m.outbox.append x with ⟨evicted, outbox⟩
  rw [happ] at hb hmem hold
  refine ends_bind (ends_modify (Q := fun _ m' => m' = { m with outbox }) rfl) fun _ m₁ he => ?_
  subst he
  cases evicted with
  | none => exact ends_pure ⟨⟨hmem, hold, hb⟩, rfl⟩
  | some lost => exact ends_modify ⟨⟨hmem, hold, hb⟩, rfl⟩

/-- The stack, the outbox and the log do not matter. -/
theorem worksOn_of_registers (key : NameId) (hm : m.Storing)
    (he : m' = { m with stack := m'.stack, outbox := m'.outbox, log := m'.log }) :
    WorksOn key m m' ∧ m'.replica? key = m.replica? key := by
  rw [he]
  exact ⟨⟨⟨hm.wellFormed, hm.tidy, hm.entries⟩, .refl hm.wellFormed, fun _ _ => rfl, rfl, rfl, rfl,
    rfl⟩, rfl⟩

/-- The entry of a key is sent. -/
theorem ends_sendEntry (hm : m.Storing) (ho : m.outbox.queue.Bounded) (op : StigmergyOp) {u : Update}
    (hp : m.stigmergy.position? key = some p) (hu : m.replica? key = some u) :
    Ends (sendEntry op key p) m (fun _ m' => WorksOn key m m' ∧ m'.replica? key = some u
      ∧ Emits (u.message op key) m m') fun _ _ => False := by
  obtain ⟨e, hs, -⟩ := Stigmergy.exists_of_position? hp
  have hue : m.update e.version = u := Option.some.inj ((replica?_of_position? hp hs).symm.trans hu)
  refine ends_get_bind ?_
  rw [hs]
  refine (ends_send ho _).imp (fun _ m' h => ?_) fun _ _ => id
  obtain ⟨w, hkept⟩ := worksOn_of_registers key hm h.2
  exact ⟨w, hkept.trans hu, hue ▸ h.1⟩

end Machine

end SwarmVm
