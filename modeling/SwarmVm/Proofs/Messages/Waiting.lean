import SwarmVm.Proofs.Messages.Priority
import SwarmVm.Proofs.Stigmergy.Custody

/-!
# Messages that wait

A message that was received waits in the inbox until it is handled, or until the inbox is full and a
newer one takes its room. While it waits it owns its payload. That no object has two owners was
shown for the entries of the store and the messages in the inbox together; here the objects also
have the values that were received, nil is none of them, and the messages are the last of those
that were received, in the order in which they came.

Nil is treated as the payload of one more message, which never leaves. So everything that is known
of payloads is known of it, too.

This holds as long as no object was given to two entries of the store. Only tables are shared by
their copies, so it holds of every run in which no table is stored (`Machine.Heard.lone`).

A message is handled outside the inbox, and its payload is let go when that is over, whether or not
it went well. What is let go is not permanent any more, and the next collection takes it unless
something else leads to it.

## Main definitions

* `Message.Carries` — a message in the inbox, and the message that was received
* `Machine.Awaiting` — what the inbox holds and owns
* `Machine.Heard` — machines that host code can reach, with the messages that were received
* `Machine.Drains` — where handling messages gets to
* `Stigmergy.Lone` — no object was given to two entries, unless a table was stored

## Main results

* `Machine.ends_receive`, `Machine.upholds_drainInbox_stocked` — receiving and handling
* `Machine.Heard.lone` — runs that store no table
* `Machine.inbox_owns_payloads` — what the inbox holds, owns and lets go
-/

namespace SwarmVm

/-! ### Undisturbed objects -/

theorem forall₂_imp_of_mem {α β : Type} {R S : α → β → Prop} {as : List α} {bs : List β}
    (h : List.Forall₂ R as bs) (hi : ∀ a, ∀ b ∈ bs, R a b → S a b) : List.Forall₂ S as bs := by
  induction h with
  | nil => exact .nil
  | cons hab _ ih =>
    exact .cons (hi _ _ List.mem_cons_self hab)
      (ih fun a b hb => hi a b (List.mem_cons_of_mem _ hb))

/-- A message in the inbox is the one that was received, with an object for its value. -/
def Message.Carries (h : Heap) (message : Message Value) (waiting : Message Ref) : Prop :=
  ∃ r, waiting = message.withPayload r ∧ ∀ v, message.payload? = some v → h.Denotes r v

/-- The object belongs to the message as well. -/
def Message.Owns (h : Heap) (message : Message Value) (waiting : Message Ref) : Prop :=
  ∃ r, waiting = message.withPayload r ∧ ∀ v, message.payload? = some v → h.Owns r v

/-- An object was let go: it is not permanent, and goes with the next collection that does not find
it. -/
def Heap.Released (h : Heap) (r : Ref) : Prop := (h.header r).permanent = false
  ∧ ∀ roots, ¬ h.Reachable roots r → (h.collect roots).2.isValid r = false

theorem Heap.released_clearPermanent {h : Heap} {r : Ref} (wf : h.WellFormed)
    (hv : h.isValid r = true) : (h.clearPermanent r).Released r := by
  have wf' := (Heap.grows_setPermanent wf r false).wellFormed
  refine ⟨?_, fun roots hr => ?_⟩
  · rw [Heap.clearPermanent, Heap.header_setPermanent wf.layout, if_pos ⟨rfl, hv⟩]
  · rw [Bool.eq_false_iff]
    intro hc
    exact hr ((Heap.isValid_collect_iff wf'.layout).1 hc).2

namespace Stigmergy

variable {s : Stigmergy} {e : StigmergyEntry}

theorem shared_replace {p : Nat} (hs : s.shared = false)
    (alone : ∀ e' ∈ s.entries.toList.eraseIdx p, e'.value ≠ e.value) :
    (s.replace p e).shared = false := by
  simpa only [replace, Bool.or_eq_false_iff, List.any_eq_false, beq_iff_eq] using ⟨hs, alone⟩

theorem shared_add (hs : s.shared = false) (alone : ∀ e' ∈ s.entries.toList, e'.value ≠ e.value) :
    (s.add e).shared = false := by
  simpa only [add, Bool.or_eq_false_iff, List.any_eq_false, beq_iff_eq] using ⟨hs, alone⟩

/-- No object was given to two entries, unless a table was stored. -/
def Lone (s : Stigmergy) : Prop := s.tabled = false → s.shared = false

end Stigmergy

namespace Machine

open Heap (Custody)

variable {F : Type} {m m' : Machine F} {nilRef : Ref} {q : Ring (Message Ref)} {n : Nat}
  {flying waiting : List (Message Ref)} {messages all : List (Message Value)}

/-- Nothing is known to have changed for those who wait: nil and the inbox are the same, and every
index that stood for a value still does. -/
structure Undisturbed (m m' : Machine F) : Prop where
  /-- Nil is the same object. -/
  nil : m'.nil = m.nil
  /-- The inbox is the same. -/
  inbox : m'.inbox = m.inbox
  /-- An object of two entries is not forgotten. -/
  shared : m'.stigmergy.shared = false → m.stigmergy.shared = false
  /-- The objects have their values. -/
  denotes : ∀ {r v}, m.heap.Denotes r v → m'.heap.Denotes r v

theorem Undisturbed.refl (m : Machine F) : Undisturbed m m := ⟨rfl, rfl, id, id⟩

theorem Aside.undisturbed (as : Aside m m') : Undisturbed m m' :=
  ⟨as.nil, as.inbox, fun hs => as.shared ▸ hs, fun d => d.keeps as.keeps⟩

theorem Aside.lone (as : Aside m m') (hl : m.stigmergy.Lone) : m'.stigmergy.Lone := fun ht =>
  as.shared.trans (hl (as.tabled.symm.trans ht))

theorem undisturbed_storeVersion (wf : m.heap.WellFormed) (p : Nat) (v : Version) :
    Ends (storeVersion p v) m (fun _ m' => Undisturbed m m') fun _ m' => Undisturbed m m' := by
  refine ends_get_bind ?_
  cases m.stigmergy.entries[p]? with
  | none => exact ends_modify ⟨rfl, rfl, id, id⟩
  | some old =>
    refine ends_bind ((replaced_replaceOwned wf old.value v.value).imp (fun _ _ => id)
      fun _ _ he => ?_) fun c m₁ h => ends_modify ?_
    · rw [he]
      exact .refl m
    · obtain ⟨same, re⟩ := h
      have hst : m₁.stigmergy = m.stigmergy := by rw [same]
      refine ⟨by rw [same], by rw [same], fun hs => ?_, fun d => d.grows (re.grows wf)⟩
      rw [hst] at hs
      exact (Stigmergy.not_shared_replace hs).1

theorem undisturbed_insertVersion (wf : m.heap.WellFormed) (key : NameId) (v : Version) :
    Ends (insertVersion key v) m (fun _ m' => Undisturbed m m') fun _ m' => Undisturbed m m' := by
  refine ends_get_bind (ends_bind ((acquired_ownedCopy wf v.value).imp (fun _ _ => id)
    fun _ _ he => ?_) fun c m₁ h => ends_modify ?_)
  · rw [he]
    exact .refl m
  · obtain ⟨same, ac, -⟩ := h
    have hst : m₁.stigmergy = m.stigmergy := by rw [same]
    refine ⟨by rw [same], by rw [same], fun hs => ?_, fun d => d.grows ac.grows⟩
    rw [hst] at hs
    exact (Stigmergy.not_shared_add hs).1

theorem undisturbed_resetStigmergy (wf : m.heap.WellFormed) :
    Ends resetStigmergy m (fun _ m' => Undisturbed m m') fun _ m' => Undisturbed m m' := by
  refine ends_modify ⟨rfl, rfl, id, fun d => d.grows ?_⟩
  rw [← Array.foldl_toList]
  exact Heap.grows_foldl_clearPermanent wf _

/-! ### Values that are no tables -/

/-- What is copied is in no entry yet. -/
theorem Keeping.ne_of_acquired {v : Value} {c : Ref} {h : Heap} (hk : Keeping flying m)
    (hs : m.stigmergy.shared = false) (ac : m.heap.Acquired v c h) (hv : v.kind ≠ .table)
    {e : StigmergyEntry} (he : e ∈ m.stigmergy.entries.toList) : e.value ≠ c := by
  rintro rfl
  have hvalid := ((hk hs).2.entries e he).isValid
  rw [ac.fresh hv] at hvalid
  cases hvalid

/-- An entry that is given something else than a table has an object of its own. -/
theorem unshared_storeVersion (wf : m.heap.WellFormed) (hk : Keeping flying m)
    (hs : m.stigmergy.shared = false) (p : Nat) {v : Version}
    (hv : (m.heap.value v.value).kind ≠ .table) :
    Ends (storeVersion p v) m (fun _ m' => m'.stigmergy.shared = false)
      fun _ m' => m'.stigmergy.shared = false := by
  refine ends_get_bind ?_
  cases hp : m.stigmergy.entries[p]? with
  | none => exact ends_modify hs
  | some old =>
    refine ends_bind ((replaced_replaceOwned wf old.value v.value).imp (fun _ _ => id)
      fun _ _ he => by rw [he]; exact hs) fun c m₁ h => ends_modify ?_
    obtain ⟨same, re⟩ := h
    have hst : m₁.stigmergy = m.stigmergy := by rw [same]
    rw [hst]
    refine Stigmergy.shared_replace hs fun e he => ?_
    obtain ⟨before, -⟩ := Stigmergy.perm_replace hp old
    change e.value ≠ c
    generalize m₁.heap = h' at re
    cases re with
    | same =>
      intro heq
      refine ((hk hs).2.perm before (.refl _)).of_cons.2 (List.mem_append_left _ ?_)
      rw [← heq]
      exact List.mem_map_of_mem he
    | other _ ac _ => exact hk.ne_of_acquired hs ac hv (List.mem_of_mem_eraseIdx he)

theorem unshared_insertVersion (wf : m.heap.WellFormed) (hk : Keeping flying m)
    (hs : m.stigmergy.shared = false) (key : NameId) {v : Version}
    (hv : (m.heap.value v.value).kind ≠ .table) :
    Ends (insertVersion key v) m (fun _ m' => m'.stigmergy.shared = false)
      fun _ m' => m'.stigmergy.shared = false := by
  refine ends_get_bind (ends_bind ((acquired_ownedCopy wf v.value).imp (fun _ _ => id)
    fun _ _ he => by rw [he]; exact hs) fun c m₁ h => ends_modify ?_)
  obtain ⟨same, ac, -⟩ := h
  have hst : m₁.stigmergy = m.stigmergy := by rw [same]
  rw [hst]
  exact Stigmergy.shared_add hs fun e he => hk.ne_of_acquired hs ac hv he

theorem lone_storeVersion (wf : m.heap.WellFormed) (hk : Keeping flying m) (hl : m.stigmergy.Lone)
    (p : Nat) (v : Version) : Ends (storeVersion p v) m (fun _ m' => m'.stigmergy.Lone)
      fun _ m' => m'.stigmergy.Lone := by
  by_cases plain : m.stigmergy.tabled = false ∧ (m.heap.value v.value).kind ≠ .table
  · exact (unshared_storeVersion wf hk (hl plain.1) p plain.2).imp (fun _ _ hs _ => hs)
      fun _ _ hs _ => hs
  refine ends_get_bind ?_
  cases m.stigmergy.entries[p]? with
  | none => exact ends_modify hl
  | some old =>
    refine ends_bind ((replaced_replaceOwned wf old.value v.value).imp (fun _ _ => id)
      fun _ _ he => by rw [he]; exact hl) fun c m₁ h => ends_modify fun ht => absurd ?_ plain
    have hst : m₁.stigmergy = m.stigmergy := by rw [h.1]
    rw [hst] at ht
    simpa [Stigmergy.replace, Version.entry, value] using ht

theorem lone_insertVersion (wf : m.heap.WellFormed) (hk : Keeping flying m)
    (hl : m.stigmergy.Lone) (key : NameId) (v : Version) :
    Ends (insertVersion key v) m (fun _ m' => m'.stigmergy.Lone)
      fun _ m' => m'.stigmergy.Lone := by
  by_cases plain : m.stigmergy.tabled = false ∧ (m.heap.value v.value).kind ≠ .table
  · exact (unshared_insertVersion wf hk (hl plain.1) key plain.2).imp (fun _ _ hs _ => hs)
      fun _ _ hs _ => hs
  refine ends_get_bind (ends_bind ((acquired_ownedCopy wf v.value).imp (fun _ _ => id)
    fun _ _ he => by rw [he]; exact hl) fun c m₁ h => ends_modify fun ht => absurd ?_ plain)
  have hst : m₁.stigmergy = m.stigmergy := by rw [h.1]
  rw [hst] at ht
  simpa [Stigmergy.add, Version.entry, value] using ht

/-! ### Waiting -/

/-- Nil, as if it were the payload of a message. -/
def nilMessage (nilRef : Ref) : Message Ref := .broadcast 0 0 nilRef

/-- The inbox is `q`, and unless an object was given to two entries, the messages besides it and
those in it are the given ones and own their payloads. Nil is owned, too. -/
structure Awaiting (nilRef : Ref) (q : Ring (Message Ref)) (flying : List (Message Ref))
    (messages : List (Message Value)) (m : Machine F) : Prop where
  /-- Nil is this object. -/
  nil : m.nil = nilRef
  /-- The inbox. -/
  inbox : m.inbox = q
  /-- The owners have their objects. -/
  keeping : Keeping (flying ++ [nilMessage nilRef]) m
  /-- The messages are those that were received. -/
  carried : m.stigmergy.shared = false →
    List.Forall₂ (Message.Carries m.heap) messages (flying ++ q.toList)
  /-- Where no table was stored, no object was given to two entries. -/
  lone : m.stigmergy.Lone

namespace Awaiting

theorem imp (h : Awaiting nilRef q flying messages m)
    (hk : Keeping (flying ++ [nilMessage nilRef]) m') (un : Undisturbed m m')
    (hl : m'.stigmergy.Lone) : Awaiting nilRef q flying messages m' where
  nil := un.nil.trans h.nil
  inbox := un.inbox.trans h.inbox
  keeping := hk
  carried hs := by
    refine (h.carried (un.shared hs)).imp ?_
    rintro message w ⟨r, rfl, hv⟩
    exact ⟨r, rfl, fun v hp => un.denotes (hv v hp)⟩
  lone := hl

theorem bounded (h : Awaiting nilRef q flying messages m) (hs : m.stigmergy.shared = false) :
    q.Bounded := h.inbox ▸ (h.keeping hs).1

/-- Nil and the payloads have one owner each. -/
theorem custody (h : Awaiting nilRef q flying messages m) (hs : m.stigmergy.shared = false) :
    m.heap.Custody m.stigmergy.entries.toList
      (nilRef :: (flying ++ q.toList).filterMap Message.payload?) := by
  have hperm : (flying ++ [nilMessage nilRef] ++ m.inbox.toList).Perm
      (nilMessage nilRef :: (flying ++ q.toList)) := by
    rw [h.inbox, List.append_assoc, List.singleton_append]
    exact List.perm_middle
  exact (h.keeping hs).2.perm (.refl _) (hperm.filterMap Message.payload?)

/-- A payload has its value for good. -/
theorem owns (h : Awaiting nilRef q flying messages m) (hs : m.stigmergy.shared = false)
    {w : Message Ref} (hw : w ∈ flying ++ q.toList) {r : Ref} (hr : w.payload? = some r) :
    ∃ v, m.heap.Owns r v := by
  have hmem : r ∈ nilRef :: (flying ++ q.toList).filterMap Message.payload? :=
    List.mem_cons_of_mem _ (List.mem_filterMap.2 ⟨w, hw, hr⟩)
  obtain ⟨v, -, o⟩ := (h.custody hs).payloads r hmem
  exact ⟨v, o⟩

/-- Every message has its payload for good. -/
theorem forall_owns (h : Awaiting nilRef q flying messages m) (hs : m.stigmergy.shared = false) :
    List.Forall₂ (Message.Owns m.heap) messages (flying ++ q.toList) := by
  refine forall₂_imp_of_mem (h.carried hs) ?_
  rintro message w hw ⟨r, rfl, hv⟩
  refine ⟨r, rfl, fun v hp => ?_⟩
  obtain ⟨_, o⟩ := h.owns hs hw (r := r) (by rw [Message.payload?_withPayload, hp]; rfl)
  exact ⟨hv v hp, o.permanent⟩

/-- A message besides the inbox is looked at no longer. -/
theorem forget {w : Message Ref} (h : Awaiting nilRef q (w :: flying) messages m) :
    Awaiting nilRef q flying messages.tail m where
  nil := h.nil
  inbox := h.inbox
  keeping := h.keeping.of_append [w]
  carried hs := by
    cases h.carried hs with
    | cons _ hrest => exact hrest
  lone := h.lone

/-- A message is put in the inbox, which may push another one out. -/
theorem push {message : Message Value} {w : Message Ref}
    (h : Awaiting nilRef q [w] (message :: messages) m) :
    Awaiting nilRef (q.push w).2 (q.push w).1.toList (messages ++ [message])
      { m with inbox := (q.push w).2 } where
  nil := h.nil
  inbox := rfl
  keeping := h.inbox ▸ h.keeping.push
  carried hs := by
    rw [← Ring.toList_push (h.bounded hs)]
    cases h.carried hs with
    | cons hw hrest => exact List.rel_append hrest (.cons hw .nil)
  lone := h.lone

/-- A message is taken from the inbox. -/
theorem pop (h : Awaiting nilRef q [] messages m) :
    Awaiting nilRef q.pop.2 q.pop.1.toList messages { m with inbox := q.pop.2 } where
  nil := h.nil
  inbox := rfl
  keeping := h.inbox ▸ h.keeping.pop
  carried hs := by
    rw [← Ring.toList_pop (h.bounded hs)]
    exact h.carried hs
  lone := h.lone

end Awaiting

/-- Neither work inside a call nor a change of the store matters to those who wait. -/
instance lasting_awaiting : Lasting (Awaiting nilRef q flying messages : Machine F → Prop) where
  aside as h := h.imp (Lasting.aside as h.keeping) as.undisturbed (as.lone h.lone)
  store p v _ hm h := (((Patient.store p v hm h.keeping).and
    (undisturbed_storeVersion hm.wellFormed p v)).and
      (lone_storeVersion hm.wellFormed h.keeping h.lone p v)).imp
        (fun _ _ h' => h.imp h'.1.1 h'.1.2 h'.2) fun _ _ h' => h.imp h'.1.1 h'.1.2 h'.2
  insert key v _ hm h := (((Patient.insert key v hm h.keeping).and
    (undisturbed_insertVersion hm.wellFormed key v)).and
      (lone_insertVersion hm.wellFormed h.keeping h.lone key v)).imp
        (fun _ _ h' => h.imp h'.1.1 h'.1.2 h'.2) fun _ _ h' => h.imp h'.1.1 h'.1.2 h'.2
  reset hm h := (((Patient.reset hm h.keeping).and
    (undisturbed_resetStigmergy hm.wellFormed)).and (ends_modify h.lone)).imp
      (fun _ _ h' => h.imp h'.1.1 h'.1.2 h'.2) fun _ _ h' => h.imp h'.1.1 h'.1.2 h'.2

/-- Nor does a collection, since payloads are permanent. -/
instance surviving_awaiting : Surviving (Awaiting nilRef q flying messages : Machine F → Prop) where
  collect := by
    intro m hm h
    refine ((upholds_collectGarbage_keeping m hm h.keeping).and ends_collectGarbage).imp ?_ ?_
    · rintro _ m' ⟨⟨w, hk⟩, log, rfl⟩
      refine ⟨w, h.nil, h.inbox, hk, fun hs => (h.forall_owns hs).imp ?_, h.lone⟩
      rintro message _ ⟨r, rfl, hv⟩
      exact ⟨r, rfl, fun v hp => ((hv v hp).collect hm.wellFormed.layout _).toDenotes⟩
    · rintro _ m' ⟨⟨w, hk⟩, -, rfl⟩
      exact ⟨w, h⟩

/-! ### Receiving -/

/-- The payload of a message that is received is a new object with its value. -/
theorem undisturbed_payloadObject (wf : m.heap.WellFormed) {bytes : List UInt8}
    {message : Message Value} (hd : Wire.decode? bytes = some message) :
    Ends (payloadObject message) m
      (fun r m' => Undisturbed m m' ∧ m'.stigmergy = m.stigmergy
        ∧ Message.Carries m'.heap message (message.withPayload r))
      fun _ m' => m' = m := by
  rw [payloadObject]
  cases hp : message.payload? with
  | none => exact ends_get_bind (ends_pure ⟨.refl m, rfl, m.nil, rfl, by simp [hp]⟩)
  | some v =>
    refine ends_bind ((ends_onHeap (Heap.acquired_allocValue wf
      (Wire.not_table_of_decode hd hp))).imp (fun _ _ => id) ?_) ?_
    · rintro _ _ ⟨_, h, rfl, rfl⟩
      rfl
    · rintro r _ ⟨h, ac, rfl⟩
      refine ends_bind (ends_modifyHeap (Q := fun _ m' => m' = { m with
        heap := h.makePermanent r }) rfl) fun _ m' he => ends_pure ?_
      rw [he]
      refine ⟨⟨rfl, rfl, id, fun d => d.grows ac.grows⟩, rfl, r, rfl, fun v' hv' => ?_⟩
      cases hp.symm.trans hv'
      exact ac.owns.toDenotes

/-- A message lets its payload go. -/
theorem ends_release_awaiting {w : Message Ref} (wf : m.heap.WellFormed)
    (h : Awaiting nilRef q (w :: flying) messages m) {E : Halt → Machine F → Prop} :
    Ends (release w) m (fun _ m' => Awaiting nilRef q flying messages.tail m'
      ∧ m'.stigmergy = m.stigmergy ∧ (m.stigmergy.shared = false →
        ∀ r, w.payload? = some r → m'.heap.Released r)) E := by
  have spec : Ends (release w) m (fun _ m' => Undisturbed m m' ∧ m'.stigmergy = m.stigmergy
      ∧ (m.stigmergy.shared = false → ∀ r, w.payload? = some r → m'.heap.Released r)) E := by
    rw [release]
    cases hp : w.payload? with
    | none => exact ends_pure ⟨.refl m, rfl, by simp⟩
    | some r =>
      refine ends_modifyHeap ⟨⟨rfl, rfl, id, fun d => d.grows (Heap.grows_setPermanent wf r false)⟩,
        rfl, fun hs r' hr' => ?_⟩
      cases hr'
      obtain ⟨v, o⟩ := h.owns hs List.mem_cons_self hp
      exact Heap.released_clearPermanent wf o.isValid
  refine ((ends_release wf h.keeping (E := E)).and spec).imp (fun _ m' h' => ?_)
    fun _ _ => And.right
  obtain ⟨hk, un, hst, hreleased⟩ := h'
  exact ⟨h.forget.imp hk un (hst ▸ h.lone), hst, hreleased⟩

/-- A message that is received is put behind those that wait. If there is no room, the oldest of
them lets its payload go. -/
theorem ends_receive (hm : m.Standard) (h : Awaiting nilRef q [] messages m) {bytes : List UInt8}
    {message : Message Value} (hd : Wire.decode? bytes = some message) :
    Ends (receive bytes) m (fun _ m' => m'.stigmergy = m.stigmergy
        ∧ ∃ r, Awaiting nilRef (q.push (message.withPayload r)).2 []
            ((messages ++ [message]).drop (q.push (message.withPayload r)).1.toList.length) m'
          ∧ (m.stigmergy.shared = false → ∀ lost ∈ (q.push (message.withPayload r)).1,
            ∀ r', lost.payload? = some r' → m'.heap.Released r'))
      fun _ m' => m' = m := by
  rw [receive, hd]
  dsimp only
  refine ends_bind ((((confined_payloadObject hd m hm).and (keeping_payloadObject hm.wellFormed
    h.keeping hd)).and (undisturbed_payloadObject hm.wellFormed hd)).imp (fun _ _ => id)
      fun _ _ => And.right) fun r m₁ h₁ => ends_get_bind ?_
  obtain ⟨⟨w₁, k₁⟩, un₁, hst₁, carries⟩ := h₁
  have h₁ : Awaiting nilRef q [message.withPayload r] (message :: messages) m₁ := by
    refine ⟨un₁.nil.trans h.nil, un₁.inbox.trans h.inbox, k₁, fun hs => .cons carries ?_,
      hst₁ ▸ h.lone⟩
    exact (h.imp (k₁.of_append [message.withPayload r]) un₁ (hst₁ ▸ h.lone)).carried hs
  have pushed := h₁.push
  rw [h₁.inbox]
  have w₂ : Within m { m₁ with inbox := (q.push (message.withPayload r)).2 } :=
    ((confined_modify (f := fun m : Machine F => { m with
      inbox := (q.push (message.withPayload r)).2 }) fun _ => rfl).later w₁).of_ok rfl
  refine ends_bind (ends_modify (Q := fun _ m₂ => m₂ = { m₁ with
    inbox := (q.push (message.withPayload r)).2 }) rfl) fun _ m₂ he => ?_
  subst he
  cases hevicted : (q.push (message.withPayload r)).1 with
  | none =>
    rw [hevicted] at pushed
    refine ends_pure ⟨hst₁, r, ?_⟩
    rw [hevicted]
    exact ⟨pushed, fun _ _ hlost => by cases hlost⟩
  | some lost =>
    rw [hevicted] at pushed
    refine (ends_release_awaiting w₂.standard.wellFormed pushed).imp (fun _ m' h' => ?_)
      fun _ _ => id
    obtain ⟨released, hst₂, hr⟩ := h'
    refine ⟨hst₂.trans hst₁, r, ?_⟩
    rw [hevicted, Option.toList_some, List.length_singleton, List.drop_one]
    refine ⟨released, fun hs lost' hlost => ?_⟩
    cases hlost
    refine hr ?_
    rw [← hs, ← hst₁]

/-! ### Handling -/

/-- The messages that wait are the last of all that were received, and there is a free slot. -/
def Stocked (nilRef : Ref) (n : Nat) (all : List (Message Value)) (m : Machine F) : Prop :=
  ∃ waiting messages, messages <:+ all ∧ m.inbox.Holds n waiting
    ∧ Awaiting nilRef m.inbox [] messages m

/-- A message is handled outside the inbox. -/
theorem Stocked.pop (h : Stocked nilRef n all m) {w : Message Ref} {inbox : Ring (Message Ref)}
    (hp : m.inbox.pop = (some w, inbox)) :
    ∃ waiting messages, messages <:+ all ∧ inbox.Holds n waiting
      ∧ Awaiting nilRef inbox [w] messages { m with inbox } := by
  obtain ⟨waiting, messages, hsuffix, holds, h⟩ := h
  have popped := h.pop
  rw [hp] at popped
  cases waiting with
  | nil =>
    rw [holds.pop_nil] at hp
    cases hp
  | cons x waiting =>
    obtain ⟨-, hrest⟩ := holds.pop
    rw [hp] at hrest
    exact ⟨waiting, messages, hsuffix, hrest, popped⟩

/-- Messages are handled and let their payloads go. -/
theorem Stocked.of_awaiting {messages : List (Message Value)} (hsuffix : messages <:+ all)
    (holds : q.Holds n waiting) (h : Awaiting nilRef q [] messages m) :
    Stocked nilRef n all m := ⟨waiting, messages, hsuffix, h.inbox ▸ holds, h.inbox.symm ▸ h⟩

variable [HostFunctions F]

/-- The payload is owned until the message has been handled, however that ends. -/
theorem upholds_attempt_dispatch {w : Message Ref} (k : Nat) :
    Upholds (Awaiting nilRef q [w] messages)
      (attempt (dispatch (callClosure k) w) : Action F (Except Fault Unit)) :=
  (upholds_dispatch (upholds_callClosure Surviving.collect k) w).attempt

theorem upholds_drainInbox_stocked (k : Nat) :
    Upholds (Stocked nilRef n all) (drainInbox k : Action F Unit) := by
  induction k with
  | zero => exact upholds_throw _
  | succ k ih =>
    intro m hm h
    refine ends_get_bind ?_
    rcases hpop : m.inbox.pop with ⟨w?, inbox⟩
    cases w? with
    | none => exact ends_pure ⟨.refl hm, h⟩
    | some w =>
      obtain ⟨waiting, messages, hsuffix, holds, h₁⟩ := h.pop hpop
      have hrest := (List.tail_suffix messages).trans hsuffix
      have w₁ : Within m { m with inbox } :=
        (confined_modify (f := fun m : Machine F => { m with inbox }) (fun _ => rfl) m hm).of_ok rfl
      refine ends_bind (ends_modify (Q := fun _ m₁ => m₁ = { m with inbox }) rfl) fun _ m₁ he => ?_
      subst he
      refine ends_bind (((upholds_attempt_dispatch k).later w₁ h₁).imp (fun _ _ => id)
        fun _ _ h' => ⟨h'.1, .of_awaiting hrest holds h'.2.forget⟩) fun result m₂ h₂ => ?_
      refine ends_bind (((confined_release w).later h₂.1).and
        (ends_release_awaiting h₂.1.standard.wellFormed h₂.2)) fun _ m₃ h₃ => ?_
      obtain ⟨w₃, h₃, -⟩ := h₃
      have stocked : Stocked nilRef n all m₃ := .of_awaiting hrest holds h₃
      cases result with
      | ok _ => exact ih.later w₃ stocked
      | error e =>
        refine ((upholds_setError e).later w₃ h₃).imp ?_ ?_
        · exact fun _ _ h' => ⟨h'.1, .of_awaiting hrest holds h'.2⟩
        · exact fun _ _ h' => ⟨h'.1, .of_awaiting hrest holds h'.2⟩

/-! ### Runs -/

/-- The messages that a request brings. -/
def Request.brought : Request → List (Message Value)
  | .receive payload => (Wire.decode? payload).toList
  | _ => []

/-- The machines that host code can reach, with all messages that were received. A request may
answer or fault, and there may be collections in between. As with all new machines, the stack has no
more entries than the bookkeeping of a call can count. -/
inductive Heard : List (Message Value) → Machine F → Prop
  /-- A new machine, whose nil is permanent. -/
  | start {m : Machine F} (hm : m.New) (hnil : m.heap.Owns m.nil .nil)
    (hs : m.stigmergy.shared = false) : Heard [] m
  /-- A request that answers. -/
  | answered {m m' : Machine F} {received : List (Message Value)} (before : Heard received m)
    (fuel : Nat) (q : Request) (hq : q.perform fuel m = .ok () m') :
    Heard (received ++ q.brought) m'
  /-- A request that faults. -/
  | faulted {m m' : Machine F} {received : List (Message Value)} (before : Heard received m)
    (fuel : Nat) (q : Request) (e : Fault) (hq : q.perform fuel m = .error (.fault e) m') :
    Heard received m'
  /-- A collection. -/
  | collected {m m' : Machine F} {received : List (Message Value)} (before : Heard received m)
    (hc : collectGarbage m = .ok () m') : Heard received m'

omit [HostFunctions F] in
/-- A new machine waits for messages. -/
theorem stocked_new (hm : m.New) (hnil : m.heap.Owns m.nil .nil)
    (hs : m.stigmergy.shared = false) : ∃ n, Stocked m.nil n [] m := by
  obtain ⟨n, hinbox⟩ := hm.inbox
  have holds : m.inbox.Holds (max n 2) [] := hinbox ▸ Ring.holds_make n
  refine ⟨max n 2, [], [], List.suffix_refl [], holds, rfl, rfl, fun _ => ⟨holds.bounded, ?_⟩, ?_,
    fun _ => hs⟩
  · rw [hm.entries, holds.toList]
    exact (Heap.custody_nil m.heap).add_payload (by simp [Value.kind]) hnil (by simp)
  · intro _
    rw [holds.toList]
    exact .nil

/-- Requests that bring no message. -/
theorem preserves_perform_stocked {q : Request} (hq : ∀ payload, q ≠ .receive payload)
    (fuel : Nat) : Preserves (Stocked nilRef n all) (q.perform fuel : Action F Unit) := by
  cases hs : q.isSilent with
  | true =>
    rintro m hm ⟨waiting, messages, hsuffix, holds, h⟩
    refine (Request.preserves_perform_of_isSilent fuel hs m hm h).imp ?_ ?_
    · exact fun _ _ h' => ⟨h'.1, .of_awaiting hsuffix holds h'.2⟩
    · exact fun _ _ h' => ⟨h'.1, .of_awaiting hsuffix holds h'.2⟩
  | false =>
    cases q with
    | receive payload => exact absurd rfl (hq payload)
    | processInbox =>
      refine Upholds.preserves (upholds_get_bind fun m => ?_)
      cases m.state with
      | ready | done => exact upholds_drainInbox_stocked fuel
      | noCode | error => exact upholds_pure _
    | _ => cases hs

omit [HostFunctions F] in
/-- A payload is received. -/
theorem Stocked.ends_receive (hm : m.Standard) (h : Stocked nilRef n all m) (payload : List UInt8) :
    Ends (receive payload) m
      (fun _ m' => Stocked nilRef n (all ++ (Wire.decode? payload).toList) m')
      fun _ m' => Stocked nilRef n all m' := by
  obtain ⟨waiting, messages, hsuffix, holds, h⟩ := h
  cases hd : Wire.decode? payload with
  | none =>
    rw [receive, hd, Option.toList_none, List.append_nil]
    refine (upholds_emit _ m hm h).imp ?_ ?_
    · exact fun _ _ h' => .of_awaiting hsuffix holds h'.2
    · exact fun _ _ h' => .of_awaiting hsuffix holds h'.2
  | some message =>
    refine (Machine.ends_receive hm h hd).imp ?_ ?_
    · rintro _ m' ⟨-, r, h', -⟩
      refine .of_awaiting ?_ (holds.push (message.withPayload r)).2 h'
      obtain ⟨gone, rfl⟩ := hsuffix
      exact (List.drop_suffix _ _).trans ⟨gone, by simp⟩
    · rintro _ _ rfl
      exact .of_awaiting hsuffix holds h

/-- What a request does to the messages that wait. -/
theorem Stocked.ends_perform (hm : m.Orderly) (h : Stocked nilRef n all m) (fuel : Nat)
    (q : Request) : Ends (q.perform fuel) m
      (fun _ m' => m'.Orderly ∧ Stocked nilRef n (all ++ q.brought) m')
      fun _ m' => m'.Orderly ∧ Stocked nilRef n all m' := by
  by_cases hr : ∃ payload, q = .receive payload
  · obtain ⟨payload, rfl⟩ := hr
    exact ((confined_receive payload m hm.standard).and (h.ends_receive hm.standard payload)).imp
      (fun _ _ h' => ⟨hm.within h'.1, h'.2⟩) fun _ _ h' => ⟨hm.within h'.1, h'.2⟩
  · have hnone : q.brought = [] := by
      cases q with
      | receive payload => exact absurd ⟨payload, rfl⟩ hr
      | _ => rfl
    rw [hnone, List.append_nil]
    exact preserves_perform_stocked (fun payload he => hr ⟨payload, he⟩) fuel m hm h

omit [HostFunctions F] in
/-- The nil of a new machine is permanent. -/
theorem owns_coreObjects {size : Nat} (accepted : Heap.refusal? size = none) :
    Ends coreObjects (Heap.make size) (fun p h => h.Owns p.1 .nil) fun _ _ => True := by
  obtain ⟨wf₀, -⟩ := Heap.wellFormed_make accepted
  have made : ∀ {nil : Ref} {h : Heap}, h.WellFormed ∧ h.Owns nil .nil →
      Ends Heap.tableNew h (fun _ h' => h'.WellFormed ∧ h'.Owns nil .nil) fun _ _ => True := by
    rintro nil h ⟨wf, o⟩
    refine (Heap.newObject_alloc (A := Set.univ) wf .table).imp (fun _ _ new => ?_)
      fun _ _ _ => trivial
    exact ⟨new.evolves.wellFormed, o.keeps (.of_evolves new.evolves)⟩
  have kept : ∀ {nil r : Ref} {h : Heap}, h.WellFormed ∧ h.Owns nil .nil →
      Ends (keep r) h (fun r' h' => r' = r ∧ h'.WellFormed ∧ h'.Owns nil .nil)
        fun _ _ => True := by
    rintro nil r h ⟨wf, o⟩
    exact ends_bind (ends_modify (Q := fun _ h' => h'.WellFormed ∧ h'.Owns nil .nil)
      ⟨(Heap.grows_setPermanent wf r true).wellFormed, o.makePermanent wf r⟩)
      fun _ _ h' => ends_pure ⟨rfl, h'⟩
  refine ends_bind ((Heap.acquired_allocValue (v := .nil) wf₀ (by simp)).imp (fun _ _ => id)
    fun _ _ _ => trivial) fun nil h₁ ac => ?_
  refine ends_bind (ends_bind (ends_modify (Q := fun _ h => h.WellFormed ∧ h.Owns nil .nil)
    ⟨ac.grows.wellFormed, ac.owns⟩) fun _ _ h => ends_pure (Q := fun (r : Ref) (h : Heap) =>
      r = nil ∧ h.WellFormed ∧ h.Owns nil .nil) ⟨rfl, h⟩) fun _ h₂ h => ?_
  obtain ⟨rfl, wf₂, o₂⟩ := h
  refine ends_bind ((Heap.newObject_arrayNew (A := Set.univ) wf₂).imp (fun _ _ => id)
    fun _ _ _ => trivial) fun record h₃ h => ?_
  obtain ⟨new, htable⟩ := h
  have o₃ := o₂.keeps (.of_evolves new.evolves)
  refine ends_bind ((Heap.evolves_arrayPush (A := Set.univ) new.evolves.wellFormed
    (fun _ => htable.1) (Set.mem_univ _)).imp (fun _ _ ev => And.intro ev.wellFormed
      (o₃.keeps (.of_evolves ev))) fun _ _ _ => trivial) fun _ h₄ h => ?_
  refine ends_bind (kept h) fun _ h₅ h => ends_bind (made h.2) fun _ h₆ h =>
    ends_bind (kept h) fun _ h₇ h => ends_bind (made h.2) fun _ h₈ h =>
      ends_bind (kept h) fun _ h₉ h => ends_pure h.2.2

omit [HostFunctions F] in
/-- The machines that are made. -/
theorem owns_nil_of_make {s : Settings} (hs : s.stackSize ≤ 65535) (hm : make s = .ok m) :
    m.heap.Owns m.nil .nil ∧ m.stigmergy.shared = false := by
  obtain ⟨nil, record, globals, listeners, heap, accepted, hc, hx⟩ := exists_bindGlobals_of_make hm
  have hl := (ends_coreObjects accepted).of_ok hc
  have blank := new_blank (F := F) hs hl.wellFormed hl.tidy nil record globals listeners
  have as := ((yields_bindGlobals Heap.reliance_arbitrary blank.toSound.reliable).of_ok hx).1.aside
  rw [as.nil]
  exact ⟨((owns_coreObjects accepted).of_ok hc).keeps as.keeps, as.shared⟩

/-- Host code begins with a machine that was made. -/
theorem heard_make {s : Settings} (hs : s.stackSize ≤ 65535) (hm : make s = .ok m) : Heard [] m :=
  .start (new_make hs hm) (owns_nil_of_make hs hm).1 (owns_nil_of_make hs hm).2

/-- What waits is the last of what was received. -/
theorem Heard.stocked {received : List (Message Value)} (h : Heard received m) :
    m.Orderly ∧ ∃ nilRef n, Stocked nilRef n received m := by
  induction h with
  | start hm hnil hs => exact ⟨.idle hm.toIdle, _, stocked_new hm hnil hs⟩
  | answered _ fuel q hq ih =>
    obtain ⟨hm, nilRef, n, h⟩ := ih
    obtain ⟨hm', h'⟩ := (h.ends_perform hm fuel q).of_ok hq
    exact ⟨hm', nilRef, n, h'⟩
  | faulted _ fuel q e hq ih =>
    obtain ⟨hm, nilRef, n, h⟩ := ih
    obtain ⟨hm', h'⟩ := (h.ends_perform hm fuel q).of_error hq
    exact ⟨hm', nilRef, n, h'⟩
  | collected _ hc ih =>
    obtain ⟨hm, nilRef, n, waiting, messages, hsuffix, holds, h⟩ := ih
    obtain ⟨w, h'⟩ := (Surviving.collect _ hm.standard h).of_ok hc
    exact ⟨hm.within w, nilRef, n, .of_awaiting hsuffix holds h'⟩

/-- **Runs that store no table.** If no table was ever given to an entry, by the script or by a
message, then no object was given to two entries. -/
theorem Heard.lone {received : List (Message Value)} (h : Heard received m) : m.stigmergy.Lone := by
  obtain ⟨-, nilRef, n, waiting, messages, -, -, h⟩ := h.stocked
  exact h.lone

/-! ### What the inbox owns -/

/-- What holds between two steps of a machine that received the given messages. -/
structure InboxOwns (received : List (Message Value)) (m : Machine F) : Prop where
  /-- The last of the messages wait, in the order in which they came, and each of them owns a
  permanent object with its value. -/
  messages : ∃ gone messages, received = gone ++ messages
    ∧ List.Forall₂ (Message.Owns m.heap) messages m.inbox.toList
  /-- One slot of the inbox is free. -/
  length : m.inbox.toList.length ≤ m.inbox.capacity - 1
  /-- Nil, the values of the entries and the payloads are different objects. -/
  distinct : (m.nil :: (m.stigmergy.entries.toList.map (·.value)
    ++ m.inbox.toList.filterMap Message.payload?)).Nodup

omit [HostFunctions F] in
theorem Stocked.inboxOwns (h : Stocked nilRef n all m) (hs : m.stigmergy.shared = false) :
    InboxOwns all m := by
  obtain ⟨waiting, messages, ⟨gone, hall⟩, holds, h⟩ := h
  refine ⟨⟨gone, messages, hall.symm, h.forall_owns hs⟩, ?_, ?_⟩
  · have hlt := holds.length_lt
    rw [holds.toList, Ring.capacity, holds.slots]
    omega
  · rw [h.nil]
    exact List.perm_middle.nodup_iff.1 (h.custody hs).distinct

/-- Handling messages comes to another machine, in which it goes on with less fuel. -/
inductive Drains : Nat → Machine F → Nat → Machine F → Prop
  /-- It has not begun. -/
  | start (k : Nat) (m : Machine F) : Drains k m k m
  /-- A message is handled without a fault, and lets its payload go. -/
  | next {k k' : Nat} {m m₁ m₂ m' : Machine F} {w : Message Ref} {inbox : Ring (Message Ref)}
    (hpop : m.inbox.pop = (some w, inbox))
    (handled : attempt (dispatch (callClosure k) w) { m with inbox } = .ok (.ok ()) m₁)
    (released : release w m₁ = .ok () m₂) (rest : Drains k m₂ k' m') : Drains (k + 1) m k' m'

/-- A message is handled, and then lets its payload go, which it has had so far. -/
theorem Stocked.handle (hm : m.Standard) (h : Stocked nilRef n all m) {k : Nat} {w : Message Ref}
    {inbox : Ring (Message Ref)} {result : Except Fault Unit} {m₁ : Machine F}
    (hpop : m.inbox.pop = (some w, inbox))
    (handled : attempt (dispatch (callClosure k) w) { m with inbox } = .ok result m₁) :
    (m₁.stigmergy.shared = false → ∀ r, w.payload? = some r → (m₁.heap.header r).permanent = true)
      ∧ ∃ m₂, release w m₁ = .ok () m₂ ∧ m₂.Standard ∧ Stocked nilRef n all m₂
        ∧ (m₁.stigmergy.shared = false → ∀ r, w.payload? = some r → m₂.heap.Released r) := by
  obtain ⟨waiting, messages, hsuffix, holds, h₁⟩ := h.pop hpop
  have w₁ : Within m { m with inbox } :=
    (confined_modify (f := fun m : Machine F => { m with inbox }) (fun _ => rfl) m hm).of_ok rfl
  obtain ⟨w₂, h₂⟩ := ((upholds_attempt_dispatch k).later w₁ h₁).of_ok handled
  refine ⟨fun hs r hr => ?_, ?_⟩
  · obtain ⟨v, o⟩ := h₂.owns hs List.mem_cons_self hr
    exact o.permanent
  · obtain ⟨m₂, hr⟩ : ∃ m₂, release w m₁ = .ok () m₂ := by
      rw [release]
      cases w.payload? with
      | none => exact ⟨_, rfl⟩
      | some r => exact ⟨_, rfl⟩
    have w₃ := ((confined_release w).later w₂).of_ok hr
    obtain ⟨h₃, -, hreleased⟩ :=
      (ends_release_awaiting (E := fun _ _ => True) w₂.standard.wellFormed h₂).of_ok hr
    exact ⟨m₂, hr, w₃.standard, .of_awaiting ((List.tail_suffix _).trans hsuffix) holds h₃,
      hreleased⟩

theorem Drains.stocked {k k' : Nat} (d : Drains k m k' m') (hm : m.Standard)
    (h : Stocked nilRef n all m) : m'.Standard ∧ Stocked nilRef n all m' := by
  induction d with
  | start => exact ⟨hm, h⟩
  | next hpop handled released _ ih =>
    obtain ⟨-, m₂, hr, hm₂, h₂, -⟩ := h.handle hm hpop handled
    cases hr.symm.trans released
    exact ih hm₂ h₂

/-- After a message the next one is handled, unless there was a fault. -/
def goOn (k : Nat) : Except Fault Unit → Action F Unit
  | .ok _ => drainInbox k
  | .error e => setError e

theorem drainInbox_succ {k : Nat} {w : Message Ref} {inbox : Ring (Message Ref)}
    {result : Except Fault Unit} {m₁ m₂ : Machine F} (hpop : m.inbox.pop = (some w, inbox))
    (handled : attempt (dispatch (callClosure k) w) { m with inbox } = .ok result m₁)
    (released : release w m₁ = .ok () m₂) : drainInbox (k + 1) m = goOn k result m₂ := by
  rw [drainInbox]
  change EStateM.bind get _ m = _
  rw [EStateM.bind]
  dsimp only [get, getThe, MonadStateOf.get, EStateM.get]
  rw [hpop]
  change EStateM.bind (attempt (dispatch (callClosure k) w)) _ { m with inbox } = _
  rw [EStateM.bind, handled]
  change EStateM.bind (release w) _ m₁ = _
  rw [EStateM.bind, released]
  cases result with
  | ok _ => rfl
  | error e => rfl

/-- What the next message that is handled does to its payload. -/
def LetsGo (k : Nat) (m : Machine F) : Prop := ∀ w inbox result m₁,
  m.inbox.pop = (some w, inbox) →
    attempt (dispatch (callClosure k) w) { m with inbox } = .ok result m₁ →
      m₁.stigmergy.shared = false →
        (∀ r, w.payload? = some r → (m₁.heap.header r).permanent = true)
          ∧ ∃ m₂, release w m₁ = .ok () m₂ ∧ (∀ r, w.payload? = some r → m₂.heap.Released r)
            ∧ drainInbox (k + 1) m = goOn k result m₂

theorem Stocked.letsGo (hm : m.Standard) (h : Stocked nilRef n all m) (k : Nat) : LetsGo k m := by
  intro w inbox result m₁ hpop handled hs
  obtain ⟨hperm, m₂, hr, -, -, hreleased⟩ := h.handle hm hpop handled
  exact ⟨hperm hs, m₂, hr, hreleased hs, drainInbox_succ hpop handled hr⟩

/-- What receiving a message does to the inbox, and to the message that has to leave it. -/
structure Admits (message : Message Value) (m m' : Machine F) : Prop where
  /-- With room, the message is put behind the others. -/
  room : m.inbox.toList.length < m.inbox.capacity - 1 →
    ∃ r, m'.inbox.toList = m.inbox.toList ++ [message.withPayload r]
  /-- Without room, the oldest message leaves the inbox and lets its payload go. -/
  full : m.inbox.toList.length = m.inbox.capacity - 1 → ∃ r oldest rest,
    m.inbox.toList = oldest :: rest ∧ m'.inbox.toList = rest ++ [message.withPayload r]
      ∧ ∀ r', oldest.payload? = some r' → m'.heap.Released r'

omit [HostFunctions F] in
theorem Stocked.admits (hm : m.Standard) (h : Stocked nilRef n all m)
    (hs : m.stigmergy.shared = false) {payload : List UInt8} {message : Message Value}
    (hd : Wire.decode? payload = some message) (hr : receive payload m = .ok () m') :
    Admits message m m' := by
  obtain ⟨waiting, messages, -, holds, h⟩ := h
  obtain ⟨-, r, h', hreleased⟩ := (Machine.ends_receive hm h hd).of_ok hr
  obtain ⟨hevicted, hpush⟩ := holds.push (message.withPayload r)
  have hlist := hpush.toList
  have htwo := holds.slots ▸ holds.bounded.slots
  rw [← h'.inbox] at hlist
  rw [hevicted] at hlist hreleased
  constructor
  · intro hroom
    rw [holds.toList, Ring.capacity, holds.slots] at hroom
    rw [if_neg (by omega)] at hlist
    exact ⟨r, holds.toList.symm ▸ hlist⟩
  · intro hfull
    rw [holds.toList, Ring.capacity, holds.slots] at hfull
    obtain ⟨oldest, rest, rfl⟩ := List.exists_cons_of_length_pos (by omega : 0 < waiting.length)
    rw [if_pos (by omega)] at hlist hreleased
    exact ⟨r, oldest, rest, holds.toList, hlist, hreleased hs oldest rfl⟩

/-- **Messages that wait own their payloads.** However requests and collections follow each other,
an object is given to two entries of the store only if some table was stored, and as long as none
was given to two entries:

* the inbox holds the last of the messages that were received, in the order in which they came, and
  a slot is free; each of them has a permanent object with its value, which is neither nil nor the
  value of an entry nor the payload of another message;
* a payload that is no message changes nothing there, and a message is put behind the others, for
  which the oldest has to leave and let its payload go if there is no room;
* the same holds between any two messages that are handled, and each of them has its payload until
  it was handled, with or without a fault, and lets it go then;
* other requests leave the inbox as it is;
* only a table can be given to two entries. -/
theorem inbox_owns_payloads {received : List (Message Value)} (h : Heard received m) :
    (m.stigmergy.tabled = false → m.stigmergy.shared = false)
    ∧ (m.stigmergy.shared = false → InboxOwns received m
      ∧ (∀ payload m', receive payload m = .ok () m' →
        (Wire.decode? payload = none → m'.inbox = m.inbox)
          ∧ ∀ message, Wire.decode? payload = some message → Admits message m m')
      ∧ (∀ k k' m', Drains k m k' m' → m'.stigmergy.shared = false →
        InboxOwns received m' ∧ ∀ j, LetsGo j m')
      ∧ (∀ fuel q, Request.isSilent q = true → (stateAfter (q.perform fuel) m).inbox = m.inbox)
      ∧ ∀ p key v, (m.heap.value v.value).kind ≠ .table →
        (stateAfter (storeVersion p v) m).stigmergy.shared = false
          ∧ (stateAfter (insertVersion key v) m).stigmergy.shared = false) := by
  refine ⟨h.lone, fun hs => ?_⟩
  obtain ⟨hm, nilRef, n, stocked⟩ := h.stocked
  have hm' := hm.standard
  obtain ⟨waiting, messages, hsuffix, holds, waits⟩ := id stocked
  refine ⟨stocked.inboxOwns hs, fun payload m' hr => ⟨fun hd => ?_, fun message hd => ?_⟩,
    fun k k' m' d hs' => ?_, fun fuel q hq => ?_, fun p key v hv => ⟨?_, ?_⟩⟩
  · rw [receive, hd] at hr
    exact ((upholds_emit _ m hm' waits).of_ok hr).2.inbox
  · exact stocked.admits hm' hs hd hr
  · obtain ⟨hm₁, stocked'⟩ := d.stocked hm' stocked
    exact ⟨stocked'.inboxOwns hs', stocked'.letsGo hm₁⟩
  · exact (Request.preserves_perform_of_isSilent fuel hq m hm waits).stateAfter.2.inbox
  · exact (unshared_storeVersion hm'.wellFormed waits.keeping hs p hv).stateAfter
  · exact (unshared_insertVersion hm'.wellFormed waits.keeping hs key hv).stateAfter

/-- Robot 2 puts an integer under a key. -/
def putBytes (value clock : UInt8) : List UInt8 := [2, 0, 2, 0, 34, 1, 0, value, clock]

/-- The second of two messages is in the inbox, which has room for one. -/
theorem inbox_owns_second : ∃ (received : List (Message Value)) (m : Machine Empty),
    Heard received m ∧ m.stigmergy.shared = false ∧ received.length = 2
      ∧ m.inbox.toList.length = 1 ∧ InboxOwns received m := by
  let m₁ := stateAfter (receive (putBytes 42 1)) small
  let m₂ := stateAfter (receive (putBytes 43 2)) m₁
  have evaluated : (small.heap.isValid small.nil = true ∧ small.heap.value small.nil = .nil
        ∧ (small.heap.header small.nil).permanent = true)
      ∧ answers (receive (putBytes 42 1)) small = true
      ∧ answers (receive (putBytes 43 2)) m₁ = true ∧ m₂.stigmergy.shared = false
      ∧ m₂.inbox.toList.length = 1 := by
    simp only [m₁, m₂]
    rw [small_eq]
    decide +kernel
  obtain ⟨⟨hvalid, hnil, hpermanent⟩, hfirst, hsecond, hs, hlength⟩ := evaluated
  have heard : Heard [] small :=
    .start new_small ⟨by simpa only [hnil] using Heap.denotes_value hvalid, hpermanent⟩ rfl
  have heard₁ : Heard (Request.receive (putBytes 42 1)).brought m₁ :=
    heard.answered 1 (.receive (putBytes 42 1)) (eq_ok_of_answers hfirst)
  have heard₂ : Heard ((Request.receive (putBytes 42 1)).brought
      ++ (Request.receive (putBytes 43 2)).brought) m₂ :=
    heard₁.answered 1 (.receive (putBytes 43 2)) (eq_ok_of_answers hsecond)
  have owns := ((inbox_owns_payloads heard₂).2 hs).1
  exact ⟨_, m₂, heard₂, hs, by decide, hlength, owns⟩

end Machine

end SwarmVm
