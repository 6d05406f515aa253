import SwarmVm.Proofs.Machine.Held
import SwarmVm.Proofs.Machine.Lifetime
import SwarmVm.Proofs.Stigmergy.Outbox

/-!
# Who owns what

An entry of the shared store owns its value, and a message in the inbox owns its payload: a
permanent object, which is let go when the value is replaced and when the message has been handled.
Whether an object is permanent is one bit, so this works as long as no object has two owners. For
values that are not tables there is no danger, since an owner takes a copy. A table is not copied.
When two entries are given the same table, the first of them to be replaced lets go of what the other
still has.

As long as this has not happened, the owners and their objects are in order: every owner has an
object of its own, it is permanent, and it has the value that was stored. Nothing that a script, a
message or a collection does ends that.

## Main definitions

* `StigmergyEntry.Owned` — the entry has its object
* `Heap.Custody` — entries and messages have their objects, and no two the same
* `Machine.Keeping` — the same of a machine, if no table was given to two entries

## Main results

* `Heap.Custody.release_entry`, `Heap.Custody.release_payload` — letting an object go
* `Machine.lasting_keeping`, `Machine.enduring_keeping` — nothing ends the custody of objects
* `Machine.Reached.entries_owned` — the entries of every machine that host code can reach
* `Machine.stored_twice_lost` — what happens to a table under two keys
-/

namespace SwarmVm

/-! ### Owners -/

/-- The value of the entry is a permanent object that has the value which was stored. If that is a
table, it is the table that was stored. -/
structure StigmergyEntry.Owned (h : Heap) (e : StigmergyEntry) : Prop
    extends h.Owns e.value e.stored where
  /-- Tables are not copied. -/
  table : e.stored.kind = .table → e.value = e.origin

namespace Heap

variable {h h' : Heap} {r c : Ref} {v : Value} {e old : StigmergyEntry}
  {es es' : List StigmergyEntry} {ws ws' : List Ref}

/-- The entries `es` own their values, the messages with payloads `ws` own these, and no object has
two owners. -/
structure Custody (h : Heap) (es : List StigmergyEntry) (ws : List Ref) : Prop where
  /-- The entries have their values. -/
  entries : ∀ e ∈ es, e.Owned h
  /-- The messages have their payloads, which are no tables. -/
  payloads : ∀ r ∈ ws, ∃ v, v.kind ≠ .table ∧ h.Owns r v
  /-- There is one owner for each object. -/
  distinct : (es.map (·.value) ++ ws).Nodup

theorem custody_nil (h : Heap) : h.Custody [] [] := ⟨by simp, by simp, by simp⟩

namespace Custody

theorem imp (cu : h.Custody es ws) (keeps : ∀ {r v}, h.Owns r v → h'.Owns r v) :
    h'.Custody es ws where
  entries e he := ⟨keeps (cu.entries e he).toOwns, (cu.entries e he).table⟩
  payloads r hr := by
    obtain ⟨v, hv, o⟩ := cu.payloads r hr
    exact ⟨v, hv, keeps o⟩
  distinct := cu.distinct

theorem perm (cu : h.Custody es ws) (he : es.Perm es') (hw : ws.Perm ws') : h.Custody es' ws' where
  entries e hm := cu.entries e (he.mem_iff.2 hm)
  payloads r hm := cu.payloads r (hw.mem_iff.2 hm)
  distinct := ((he.map _).append hw).nodup_iff.1 cu.distinct

theorem of_payloads (gone : List Ref) (cu : h.Custody es (gone ++ ws)) : h.Custody es ws where
  entries := cu.entries
  payloads r hr := cu.payloads r (List.mem_append_right gone hr)
  distinct := cu.distinct.sublist ((List.sublist_append_right gone ws).append_left _)

/-- An owner lets its object go, and the other owners have theirs. -/
theorem release (wf : h.WellFormed) (cu : h.Custody es ws) (hr : r ∉ es.map (·.value) ++ ws) :
    (h.clearPermanent r).Custody es ws where
  entries e he := by
    have ne : e.value ≠ r := by
      rintro rfl
      exact hr (List.mem_append_left _ (List.mem_map_of_mem he))
    exact ⟨(cu.entries e he).toOwns.setPermanent_of_ne wf ne false, (cu.entries e he).table⟩
  payloads r' hr' := by
    obtain ⟨v, hv, o⟩ := cu.payloads r' hr'
    refine ⟨v, hv, o.setPermanent_of_ne wf ?_ false⟩
    rintro rfl
    exact hr (List.mem_append_right _ hr')
  distinct := cu.distinct

theorem of_cons (cu : h.Custody (e :: es) ws) :
    h.Custody es ws ∧ e.value ∉ es.map (·.value) ++ ws := by
  obtain ⟨hr, distinct⟩ := List.nodup_cons.1 cu.distinct
  exact ⟨⟨fun e' he' => cu.entries e' (.tail _ he'), cu.payloads, distinct⟩, hr⟩

theorem release_entry (wf : h.WellFormed) (cu : h.Custody (e :: es) ws) :
    (h.clearPermanent e.value).Custody es ws := release wf cu.of_cons.1 cu.of_cons.2

theorem release_payload (wf : h.WellFormed) (cu : h.Custody es (r :: ws)) :
    (h.clearPermanent r).Custody es ws := by
  obtain ⟨hr, -⟩ := List.nodup_cons.1 (List.perm_middle.nodup_iff.1 cu.distinct)
  exact release wf (of_payloads [r] cu) hr

/-- All entries let their objects go. -/
theorem release_entries (wf : h.WellFormed) (cu : h.Custody es ws) :
    (es.foldl (fun h e => h.clearPermanent e.value) h).Custody [] ws := by
  induction es generalizing h with
  | nil => exact cu
  | cons e es ih =>
    exact ih (grows_setPermanent wf e.value false).wellFormed (cu.release_entry wf)

theorem add_entry (cu : h.Custody es ws) (he : e.Owned h) (hr : e.value ∉ es.map (·.value) ++ ws) :
    h.Custody (e :: es) ws where
  entries e' he' := by
    rcases List.mem_cons.1 he' with rfl | he'
    · exact he
    · exact cu.entries e' he'
  payloads := cu.payloads
  distinct := List.nodup_cons.2 ⟨hr, cu.distinct⟩

theorem add_payload (cu : h.Custody es ws) (hv : v.kind ≠ .table) (o : h.Owns r v)
    (hr : r ∉ es.map (·.value) ++ ws) : h.Custody es (r :: ws) where
  entries := cu.entries
  payloads r' hr' := by
    rcases List.mem_cons.1 hr' with rfl | hr'
    · exact ⟨v, hv, o⟩
    · exact cu.payloads r' hr'
  distinct := List.perm_middle.nodup_iff.2 (List.nodup_cons.2 ⟨hr, cu.distinct⟩)

/-! ### Taking objects -/

theorem isValid (cu : h.Custody es ws) (hr : r ∈ es.map (·.value) ++ ws) : h.isValid r = true := by
  rcases List.mem_append.1 hr with hr | hr
  · obtain ⟨e, he, rfl⟩ := List.mem_map.1 hr
    exact (cu.entries e he).isValid
  · obtain ⟨v, -, o⟩ := cu.payloads r hr
    exact o.isValid

/-- A payload is no table, and other values are copied. So what an owner takes is no payload. -/
theorem notMem_payloads (cu : h.Custody es ws) (ac : Acquired h v c h') : c ∉ ws := by
  intro hc
  obtain ⟨w, hw, o⟩ := cu.payloads c hc
  by_cases hv : v.kind = .table
  · exact hw (by rw [← (ac.keeps o).kind, ac.owns.kind, hv])
  · exact absurd o.isValid (by rw [ac.fresh hv]; simp)

/-- An entry is added whose object no other entry has. -/
theorem insert (cu : h.Custody es ws) (ac : Acquired h e.stored e.value h')
    (table : e.stored.kind = .table → e.value = e.origin)
    (alone : ∀ e' ∈ es, e'.value ≠ e.value) : h'.Custody (e :: es) ws := by
  refine add_entry (cu.imp ac.keeps) ⟨ac.owns, table⟩ fun hr => ?_
  rcases List.mem_append.1 hr with hr | hr
  · obtain ⟨e', he', heq⟩ := List.mem_map.1 hr
    exact alone e' he' heq
  · exact cu.notMem_payloads ac hr

/-- An entry is replaced by one whose object no other entry has. -/
theorem replace (cu : h.Custody (old :: es) ws)
    (re : h.Replaced old.value e.origin e.value h') (stored : e.stored = h.value e.origin)
    (alone : ∀ e' ∈ es, e'.value ≠ e.value) : h'.Custody (e :: es) ws := by
  have owned := cu.entries old (.head _)
  generalize hc : e.value = c at re alone
  cases re with
  | same he =>
    obtain ⟨rest, hr⟩ := cu.of_cons
    refine rest.add_entry ⟨⟨?_, ?_⟩, fun _ => hc.trans he.symm⟩ (by rwa [hc])
    · rw [hc, stored, he]
      exact denotes_value owned.isValid
    · rw [hc]
      exact owned.permanent
  | @other _ h₁ ne ac ht =>
    rw [← stored] at ac ht
    have differ : old.value ≠ c := by
      rintro rfl
      by_cases hk : e.stored.kind = .table
      · exact ne (ht hk).symm
      · exact absurd owned.isValid (by rw [ac.fresh hk]; simp)
    have both : h₁.Custody (e :: old :: es) ws := by
      refine cu.insert (by rwa [hc]) (fun hk => hc.trans (ht hk)) fun e' he' => ?_
      rw [hc]
      rcases List.mem_cons.1 he' with rfl | he'
      · exact differ
      · exact alone e' he'
    exact release_entry ac.grows.wellFormed (both.perm (.swap old e es) (.refl ws))

end Custody

end Heap

/-! ### Machines -/

theorem Value.kind_ne_table {v : Value} (ht : ∀ t, v ≠ .table t) : v.kind ≠ .table := by
  intro hk
  cases v with
  | table t => exact ht t rfl
  | _ => cases hk

theorem Message.payload?_withPayload {α β : Type} (message : Message α) (b : β) :
    (message.withPayload b).payload? = message.payload?.map fun _ => b := by
  cases message with
  | broadcast | stigmergy | swarm => rfl

namespace Stigmergy

variable {s : Stigmergy} {p : Nat} {e old : StigmergyEntry}

theorem perm_replace (hp : s.entries[p]? = some old) (e : StigmergyEntry) :
    s.entries.toList.Perm (old :: s.entries.toList.eraseIdx p)
      ∧ (s.replace p e).entries.toList.Perm (e :: s.entries.toList.eraseIdx p) := by
  obtain ⟨hlt, rfl⟩ := Array.getElem?_eq_some_iff.1 hp
  refine ⟨(List.getElem_cons_eraseIdx_perm (l := s.entries.toList) hlt).symm, ?_⟩
  rw [replace, Array.toList_setIfInBounds]
  exact List.set_perm_cons_eraseIdx hlt e

theorem not_shared_replace (hs : (s.replace p e).shared = false) : s.shared = false
    ∧ ∀ e' ∈ s.entries.toList.eraseIdx p, e'.value ≠ e.value := by
  simpa only [replace, Bool.or_eq_false_iff, List.any_eq_false, beq_iff_eq] using hs

theorem not_shared_add (hs : (s.add e).shared = false) : s.shared = false
    ∧ ∀ e' ∈ s.entries.toList, e'.value ≠ e.value := by
  simpa only [add, Bool.or_eq_false_iff, List.any_eq_false, beq_iff_eq] using hs

theorem perm_add (s : Stigmergy) (e : StigmergyEntry) :
    (s.add e).entries.toList.Perm (e :: s.entries.toList) := by
  rw [add, Array.toList_push]
  exact List.perm_append_singleton e s.entries.toList

end Stigmergy

namespace Machine

open Heap (Custody)

variable {F : Type} {m m' : Machine F} {q : Ring (Message Ref)} {message : Message Ref}
  {flying flying' : List (Message Ref)}

/-- Unless an object was given to two entries, the owners have their objects: the entries, the
messages in the inbox, and messages besides them, which are on the way in or are being handled. -/
def Keeping (flying : List (Message Ref)) (m : Machine F) : Prop := m.stigmergy.shared = false →
  m.inbox.Bounded ∧ m.heap.Custody m.stigmergy.entries.toList
    ((flying ++ m.inbox.toList).filterMap Message.payload?)

namespace Keeping

theorem of_append (gone : List (Message Ref)) (hk : Keeping (gone ++ flying) m) :
    Keeping flying m := by
  intro hs
  obtain ⟨hb, cu⟩ := hk hs
  rw [List.append_assoc, List.filterMap_append] at cu
  exact ⟨hb, cu.of_payloads _⟩

theorem owned {e : StigmergyEntry} (hk : Keeping flying m) (hs : m.stigmergy.shared = false)
    (he : e ∈ m.stigmergy.entries) : e.Owned m.heap := (hk hs).2.entries e he.val

/-- Messages are put in the inbox or taken from it. -/
theorem inbox (hk : Keeping flying m) (hb : m.inbox.Bounded → q.Bounded)
    (hp : m.inbox.Bounded → (flying ++ m.inbox.toList).Perm (flying' ++ q.toList)) :
    Keeping flying' { m with inbox := q } := by
  intro hs
  obtain ⟨hb', cu⟩ := hk hs
  exact ⟨hb hb', cu.perm (.refl _) ((hp hb').filterMap _)⟩

theorem push (hk : Keeping (message :: flying) m) :
    Keeping ((m.inbox.push message).1.toList ++ flying)
      { m with inbox := (m.inbox.push message).2 } := by
  refine hk.inbox (fun hb => (Ring.push_spec hb message).1) fun hb => ?_
  have behind : (message :: flying ++ m.inbox.toList).Perm
      (flying ++ m.inbox.toList ++ [message]) := (List.perm_append_singleton _ _).symm
  refine behind.trans ?_
  rw [List.append_assoc, Ring.toList_push hb, ← List.append_assoc]
  exact List.perm_append_comm.append_right _

theorem pop (hk : Keeping flying m) :
    Keeping (m.inbox.pop.1.toList ++ flying) { m with inbox := m.inbox.pop.2 } := by
  refine hk.inbox Ring.bounded_pop fun hb => ?_
  rw [Ring.toList_pop hb, ← List.append_assoc]
  exact List.perm_append_comm.append_right _

end Keeping

/-! ### Work inside a call -/

/-- The condition is about the store, the inbox and the permanent objects. -/
theorem Keeping.imp (hk : Keeping flying m) (entries : m'.stigmergy.entries = m.stigmergy.entries)
    (shared : m'.stigmergy.shared = m.stigmergy.shared) (inbox : m'.inbox = m.inbox)
    (keeps : ∀ {r v}, m.heap.Owns r v → m'.heap.Owns r v) : Keeping flying m' := by
  intro hs
  obtain ⟨hb, cu⟩ := hk (shared ▸ hs)
  rw [entries, inbox]
  exact ⟨hb, cu.imp keeps⟩

/-- A message lets its payload go. -/
theorem ends_release (wf : m.heap.WellFormed) (hk : Keeping (message :: flying) m)
    {E : Halt → Machine F → Prop} :
    Ends (release message) m (fun _ m' => Keeping flying m') E := by
  rw [release]
  cases hp : message.payload? with
  | none => exact ends_pure (hk.of_append [message])
  | some r =>
    refine ends_modifyHeap fun hs => ?_
    obtain ⟨hb, cu⟩ := hk hs
    rw [List.cons_append, List.filterMap_cons_some hp] at cu
    exact ⟨hb, cu.release_payload wf⟩

/-! ### Changes of the store -/

theorem keeping_storeVersion (wf : m.heap.WellFormed) (hk : Keeping flying m) (p : Nat)
    (v : Version) : Ends (storeVersion p v) m (fun _ m' => Keeping flying m')
      fun _ m' => Keeping flying m' := by
  refine ends_get_bind ?_
  cases hp : m.stigmergy.entries[p]? with
  | none => exact ends_modify hk
  | some old =>
    refine ends_bind ((replaced_replaceOwned wf old.value v.value).imp (fun _ _ => id)
      fun _ _ he => ?_) fun c m₁ h => ends_modify fun hs => ?_
    · rw [he]
      exact hk
    · obtain ⟨same, re⟩ := h
      have hst : m₁.stigmergy = m.stigmergy := by rw [same]
      have hin : m₁.inbox = m.inbox := by rw [same]
      rw [hst] at hs ⊢
      obtain ⟨hns, alone⟩ := Stigmergy.not_shared_replace hs
      obtain ⟨before, after⟩ := Stigmergy.perm_replace hp (v.entry old.key c (m.value v.value))
      obtain ⟨hb, cu⟩ := hk hns
      rw [hin]
      exact ⟨hb, ((cu.perm before (.refl _)).replace re rfl alone).perm after.symm (.refl _)⟩

theorem keeping_insertVersion (wf : m.heap.WellFormed) (hk : Keeping flying m) (key : NameId)
    (v : Version) : Ends (insertVersion key v) m (fun _ m' => Keeping flying m')
      fun _ m' => Keeping flying m' := by
  refine ends_get_bind (ends_bind ((acquired_ownedCopy wf v.value).imp (fun _ _ => id)
    fun _ _ he => ?_) fun c m₁ h => ends_modify fun hs => ?_)
  · rw [he]
    exact hk
  · obtain ⟨same, ac, table⟩ := h
    have hst : m₁.stigmergy = m.stigmergy := by rw [same]
    have hin : m₁.inbox = m.inbox := by rw [same]
    rw [hst] at hs ⊢
    obtain ⟨hns, alone⟩ := Stigmergy.not_shared_add hs
    obtain ⟨hb, cu⟩ := hk hns
    rw [hin]
    exact ⟨hb, (cu.insert ac table alone).perm (Stigmergy.perm_add _ _).symm (.refl _)⟩

theorem keeping_resetStigmergy (wf : m.heap.WellFormed) (hk : Keeping flying m) :
    Ends resetStigmergy m (fun _ m' => Keeping flying m') fun _ m' => Keeping flying m' := by
  refine ends_modify fun hs => ?_
  obtain ⟨hb, cu⟩ := hk hs
  rw [← Array.foldl_toList]
  exact ⟨hb, cu.release_entries wf⟩

/-- Neither work inside a call nor a change of the store takes an object from its owner. -/
instance lasting_keeping (flying : List (Message Ref)) :
    Lasting (Keeping flying : Machine F → Prop) where
  aside as hk := hk.imp as.entries as.shared as.inbox fun o => o.keeps as.keeps
  store p v _ hm hk := keeping_storeVersion hm.wellFormed hk p v
  insert key v _ hm hk := keeping_insertVersion hm.wellFormed hk key v
  reset hm hk := keeping_resetStigmergy hm.wellFormed hk

/-- Nor does a collection. -/
theorem upholds_collectGarbage_keeping :
    Upholds (Keeping flying) (collectGarbage : Action F Unit) := by
  refine confined_collectGarbage.upholds fun {m} hm hk => ends_collectGarbage.imp ?_ ?_
  · rintro _ _ ⟨log, rfl⟩
    exact hk.imp rfl rfl rfl fun o => o.collect hm.wellFormed.layout _
  · rintro _ _ ⟨-, rfl⟩
    exact hk

/-! ### Messages -/

/-- A payload is a new object, which the message owns. -/
theorem keeping_payloadObject (wf : m.heap.WellFormed) (hk : Keeping flying m)
    {bytes : List UInt8} {message : Message Value} (hd : Wire.decode? bytes = some message) :
    Ends (payloadObject message) m (fun r m' => Keeping (message.withPayload r :: flying) m')
      fun _ m' => Keeping flying m' := by
  rw [payloadObject]
  cases hp : message.payload? with
  | none =>
    refine ends_get_bind (ends_pure fun hs => ?_)
    rw [List.cons_append, List.filterMap_cons_none (by rw [Message.payload?_withPayload, hp]; rfl)]
    exact hk hs
  | some v =>
    refine ends_bind ((ends_onHeap (Heap.acquired_allocValue wf
      (Wire.not_table_of_decode hd hp))).imp (fun _ _ => id) ?_) ?_
    · rintro _ _ ⟨_, h, rfl, rfl⟩
      exact hk
    · rintro r _ ⟨h, ac, rfl⟩
      refine ends_bind (ends_modifyHeap (Q := fun _ m' => m' = { m with
        heap := h.makePermanent r }) rfl) fun _ m' he => ends_pure fun hs => ?_
      have hv := Value.kind_ne_table (Wire.not_table_of_decode hd hp)
      rw [he] at hs ⊢
      obtain ⟨hb, cu⟩ := hk hs
      rw [List.cons_append, List.filterMap_cons_some (b := r)
        (by rw [Message.payload?_withPayload, hp]; rfl)]
      refine ⟨hb, (cu.imp ac.keeps).add_payload hv ac.owns fun hr => ?_⟩
      exact absurd (cu.isValid hr) (by rw [ac.fresh hv]; simp)

theorem upholds_receive_keeping (payload : List UInt8) :
    Upholds (Keeping flying) (receive payload : Action F Unit) := by
  intro m hm hk
  rw [receive]
  cases hd : Wire.decode? payload with
  | none => exact upholds_emit _ m hm hk
  | some message =>
    refine ends_bind ((confined_payloadObject hd m hm).and
      (keeping_payloadObject hm.wellFormed hk hd)) fun r m₁ h₁ => ends_get_bind ?_
    obtain ⟨w₁, k₁⟩ := h₁
    have pushed := k₁.push
    rcases hpush : m₁.inbox.push (message.withPayload r) with ⟨evicted, inbox⟩
    rw [hpush] at pushed
    refine ends_bind (((confined_modify fun _ => rfl).later w₁).and (ends_modify
      (Q := fun _ m₂ => Keeping (evicted.toList ++ flying) m₂) pushed)) fun _ m₂ h₂ => ?_
    obtain ⟨w₂, k₂⟩ := h₂
    cases evicted with
    | none => exact ends_pure ⟨w₂, k₂⟩
    | some lost =>
      exact ((confined_release lost).later w₂).and (ends_release w₂.standard.wellFormed k₂)

theorem keeping_new (hm : m.New) : Keeping [] m := by
  intro _
  obtain ⟨n, hinbox⟩ := hm.inbox
  rw [hm.entries, hinbox, inbox_toList_make]
  exact ⟨Ring.bounded_make n, Heap.custody_nil m.heap⟩

variable [HostFunctions F]

/-- A message keeps its payload while it is handled, and lets it go then. -/
theorem upholds_drainInbox_keeping (n : Nat) :
    Upholds (Keeping flying) (drainInbox n : Action F Unit) := by
  induction n with
  | zero => exact upholds_throw _
  | succ n ih =>
    intro m hm hk
    refine ends_get_bind ?_
    have popped := hk.pop
    rcases hpop : m.inbox.pop with ⟨message?, inbox⟩
    rw [hpop] at popped
    cases message? with
    | none => exact ends_pure ⟨.refl hm, hk⟩
    | some message =>
      have handled : Upholds (Keeping (message :: flying))
          (attempt (dispatch (callClosure n) message) : Action F (Except Fault Unit)) :=
        (upholds_dispatch (upholds_callClosure upholds_collectGarbage_keeping n) message).attempt
      refine ends_bind ((confined_modify (fun _ => rfl) m hm).and (ends_modify
        (Q := fun _ m₁ => Keeping (message :: flying) m₁) popped)) fun _ m₁ h₁ => ?_
      refine ends_bind ((handled.later h₁.1 h₁.2).imp (fun _ _ => id)
        fun _ _ h => ⟨h.1, h.2.of_append [message]⟩) fun result m₂ h₂ => ?_
      refine ends_bind (((confined_release message).later h₂.1).and
        (ends_release h₂.1.standard.wellFormed h₂.2)) fun _ m₃ h₃ => ?_
      cases result with
      | ok _ => exact ih.later h₃.1 h₃.2
      | error e => exact (upholds_setError e).later h₃.1 h₃.2

/-- Nothing takes an object from its owner. -/
instance enduring_keeping : Enduring (Keeping [] : Machine F → Prop) where
  collect := upholds_collectGarbage_keeping
  receive := upholds_receive_keeping
  drain := upholds_drainInbox_keeping

/-! ### Every machine -/

/-- **Entries own their values.** In every machine that host code can reach by running scripts,
handing messages to it and having them handled, with a collection before every instruction, the
value of every entry is a permanent object with the value that was stored there last, whatever was
replaced since. This takes that no table was given to an entry while another entry had it. -/
theorem Reached.entries_owned (hm : Reached m) (hs : m.stigmergy.shared = false) :
    ∀ e ∈ m.stigmergy.entries, e.Owned m.heap := by
  intro e he
  obtain ⟨-, cu⟩ := (hm.holds keeping_new).2 hs
  exact cu.entries e he.val

/-- A small machine with the objects that every machine has. -/
def small : Machine Empty :=
  blank { heapSize := 272, robot := 1, stackSize := 15, inboxSlots := 2, outboxSlots := 2 } 0 1 2 3
    (Heap.after coreObjects (Heap.make 272))

theorem coreObjects_roomy : coreObjects (Heap.make 272)
    = .ok (0, 1, 2, 3) (.laidOut coreValues 186 coreSegments) :=
  coreObjects_laidOut (by decide +kernel)

theorem small_eq : small
    = blank { heapSize := 272, robot := 1, stackSize := 15, inboxSlots := 2, outboxSlots := 2 }
      0 1 2 3 (.laidOut coreValues 186 coreSegments) := by
  rw [small, Heap.after, coreObjects_roomy]

theorem new_small : small.New := by
  have hl := (ends_coreObjects (by decide)).of_ok coreObjects_roomy
  rw [small_eq]
  exact new_blank (by decide) hl.wellFormed hl.tidy 0 1 2 3

/-- Two names, a table and the function that puts, and then what is put. -/
def putting (puts : List (List Ref)) : List Request :=
  [.alloc (.string 34), .alloc (.string 35), .pushTable,
    .alloc (.closure (.ofHost Primitive.stigmergyPut.functionId))] ++ puts.map (.callClosure 7)

/-- A table is put. -/
theorem entries_owned_small : ∃ m : Machine Empty, Reached m ∧ m.stigmergy.shared = false
    ∧ m.stigmergy.entries.toList.map (·.origin) = [6]
    ∧ ∀ e ∈ m.stigmergy.entries, e.Owned m.heap := by
  have hput : answers (performAll 2 (putting [[5, 6]])) small = true
      ∧ (stateAfter (performAll 2 (putting [[5, 6]])) small).stigmergy.shared = false
      ∧ (stateAfter (performAll 2 (putting [[5, 6]])) small).stigmergy.entries.toList.map
        (·.origin) = [6] := by
    rw [small_eq]
    decide +kernel
  have reached := (Reached.start new_small).performAll (eq_ok_of_answers hput.1)
  exact ⟨_, reached, hput.2.1, hput.2.2, reached.entries_owned hput.2.1⟩

/-- **A table under two keys is lost.** When the first key is given another value, the table is not
permanent any more, and the second key still has it. -/
theorem stored_twice_lost : ¬ ∀ m : Machine Empty, Reached m →
    ∀ e ∈ m.stigmergy.entries, (m.heap.header e.value).permanent = true := by
  intro h
  have hput : answers (performAll 2 (putting [[4, 6], [5, 6], [4, 5]])) small = true
      ∧ ∃ e ∈ (stateAfter (performAll 2 (putting [[4, 6], [5, 6], [4, 5]])) small).stigmergy.entries,
        ((stateAfter (performAll 2 (putting [[4, 6], [5, 6], [4, 5]])) small).heap.header
          e.value).permanent = false := by
    rw [small_eq]
    decide +kernel
  obtain ⟨ha, e, he, hp⟩ := hput
  have reached := (Reached.start new_small).performAll (eq_ok_of_answers ha)
  exact absurd (h _ reached e he) (by rw [hp]; simp)

end Machine

end SwarmVm
