import SwarmVm.Proofs.Machine.Returns
import SwarmVm.Proofs.Stigmergy.Receiving

/-!
# What a robot does with a key

A script puts a value under a key, or asks for the value of a key; the machine takes in updates of
others. Each of the three is described by what is held under the key before and after, and by what
is sent. The script's functions return to their caller at the end, which clears the activation
record of the call; a value that is no table is not concerned by that.

## Main definitions

* `Machine.argument?` — an argument of the current call
* `Machine.Peer` — a robot whose script leaves conflicts to the machine

## Main results

* `Machine.ends_stigmergyPut`, `Machine.ends_stigmergyGet` — the functions of the script
* `Machine.Peer.receiveStigmergy` — updates of others
-/

namespace SwarmVm

namespace Machine

variable {F α β : Type} {m m' m'' : Machine F} {op : StigmergyOp} {key : NameId} {v : Value}
  {robot : RobotId} {u : Update}

/-! ### Robots -/

/-- A robot with the given number whose script leaves conflicts to the machine. -/
structure Peer (robot : RobotId) (m : Machine F) : Prop where
  /-- The machine stores. -/
  storing : m.Storing
  /-- Its outbox is bounded. -/
  outbox : m.outbox.queue.Bounded
  /-- It has its number. -/
  robot : m.robot = robot
  /-- The script does not settle conflicts, -/
  onConflict : m.stigmergy.onConflict = none
  /-- and is not told of lost ones. -/
  onConflictLost : m.stigmergy.onConflictLost = none

theorem Peer.worksOn (hp : Peer robot m) (w : WorksOn key m m')
    (ho : m'.outbox.queue.Bounded) : Peer robot m' :=
  ⟨w.storing, ho, w.robot.trans hp.robot, w.onConflict.trans hp.onConflict,
    w.onConflictLost.trans hp.onConflictLost⟩

/-- A return leaves what is held under a key alone, unless it is a table. -/
theorem ends_leaveFrame_peer (hp : Peer robot m) (hl : m.heap.IsTable m.locals)
    (hu : ∀ u, m.replica? key = some u → u.value.kind ≠ .table) (result : Option Ref) :
    Ends (leaveFrame result) m (fun _ m' => Peer robot m' ∧ m'.replica? key = m.replica? key
      ∧ m'.outbox = m.outbox) fun _ _ => True := by
  have wf := hp.storing.wellFormed
  have ev : Heap.Evolves ∅ ∅ m.heap _ := Heap.evolves_arrayClear wf hl
  refine (ends_leaveFrame_heap wf hl.1 result).imp (fun _ m' he => ?_) fun _ _ => id
  have hheap : m'.heap = m.heap.arrayClear m.locals := by rw [he]
  have hstore : m'.stigmergy = m.stigmergy := by rw [he]
  refine ⟨⟨⟨?_, ?_, fun e hmem => ?_⟩, ?_, ?_, ?_, ?_⟩, ?_, ?_⟩
  · rw [hheap]
    exact ev.wellFormed
  · rw [hheap]
    exact ev.tidy hp.storing.tidy
  · rw [hstore] at hmem
    rw [hheap]
    exact ev.isValid e.value (Set.notMem_empty _) (hp.storing.entries e hmem)
  · rw [he]
    exact hp.outbox
  · rw [he]
    exact hp.robot
  · rw [hstore]
    exact hp.onConflict
  · rw [hstore]
    exact hp.onConflictLost
  · rw [replica?, hstore, replica?]
    cases hk : m.stigmergy.lookup? key with
    | none => rfl
    | some e =>
      have hv := hp.storing.entries e (Stigmergy.mem_of_lookup? hk)
      have hkind := hu (m.update e.version) (by rw [replica?, hk, Option.map_some])
      have hne : e.value ≠ m.locals := by
        intro heq
        refine hkind ?_
        rw [update_value, value, e.version_value, ← Heap.kind_eq_kind_value hv, heq]
        exact hl.2
      have hvalue := ((Heap.spares_arrayClear wf hl.1).unaltered_of_ne hne hv).value
      rw [Option.map_some, Option.map_some, update, update, value, value, hheap, e.version_value,
        hvalue]
  · rw [he]

/-! ### Arguments -/

/-- The value of local `i` of the current call. -/
def argument? (m : Machine F) (i : UInt16) : Option Value :=
  (m.heap.arrayGet? m.locals i.toNat).map m.value

theorem ends_stringArg (hm : m.Storing) {i : UInt16} (hi : m.argument? i = some (.string key)) :
    Ends (stringArg i) m (fun k m' => m' = m ∧ k = key) fun _ _ => True := by
  refine ends_bind (ends_localAt hm.wellFormed hm.tidy i) fun r m' h => ends_get_bind ?_
  obtain ⟨rfl, hr⟩ := h
  rw [argument?, hr, Option.map_some, Option.some.injEq] at hi
  refine (ends_orFail _ _).imp (fun k m'' h => ⟨h.1, ?_⟩) fun _ _ _ => trivial
  have hk := h.2
  rw [hi, Value.asString?, Option.some.injEq] at hk
  exact hk.symm

/-! ### The functions of the script -/

/-- A function of the script returns after it has worked on a key and sent a message. -/
theorem ends_leaveFrame_sent (hp : Peer robot m) (hl : m.heap.IsTable m.locals)
    (w : WorksOn key m m') {x : Message Value} (em : Emits x m m')
    (hu : ∀ u, m'.replica? key = some u → u.value.kind ≠ .table) (result : Option Ref) :
    Ends (leaveFrame result) m' (fun _ m'' => Peer robot m'' ∧ m''.replica? key = m'.replica? key
      ∧ Emits x m m'') fun _ _ => True := by
  have hl' : m'.heap.IsTable m'.locals := by
    rw [w.locals]
    exact (w.grows.spares.unaltered hl.1).isTable hl
  exact (ends_leaveFrame_peer (hp.worksOn w em.bounded) hl' hu result).imp
    (fun _ _ h => ⟨h.1, h.2.1, em.congr rfl h.2.2⟩) fun _ _ => id

/-- The first argument is there, so the activation record is an array. -/
theorem isTable_locals (hm : m.Storing) {i : UInt16} (hv : m.argument? i = some v) :
    m.heap.IsTable m.locals := by
  rw [argument?, Option.map_eq_some_iff] at hv
  obtain ⟨r, hr, -⟩ := hv
  exact isTable_of_arrayGet? hm.tidy hr

/-- The clock of a key, zero when nothing is held under it. -/
def clock (m : Machine F) (key : NameId) : UInt8 := ((m.replica? key).map (·.clock)).getD 0

/-- **A put.** The update that is held and sent afterwards is that of this robot, with the next clock
of the key. -/
theorem ends_stigmergyPut (hp : Peer robot m) (hkey : m.argument? 1 = some (.string key))
    (hv : m.argument? 2 = some v) (ht : v.kind ≠ .table) : Ends stigmergyPut m
      (fun _ m' => Peer robot m' ∧ m'.replica? key = some ⟨robot, m.clock key + 1, v⟩
        ∧ Emits (Update.message .put key ⟨robot, m.clock key + 1, v⟩) m m') fun _ _ => True := by
  have hm := hp.storing
  have hl := isTable_locals hm hkey
  refine ends_bind (ends_requireArgs hm.wellFormed hm.tidy 2) fun _ m₁ he => ?_
  subst he
  refine ends_bind (ends_stringArg hm hkey) fun k m₂ he => ?_
  obtain ⟨rfl, rfl⟩ := he
  refine ends_bind (ends_localAt hm.wellFormed hm.tidy 2) fun r m he => ends_get_bind ?_
  obtain ⟨rfl, hr⟩ := he
  rw [argument?, hr, Option.map_some, Option.some.injEq] at hv
  subst hv
  -- either way the update is held when it is sent, and then the call returns
  have sent : ∀ {m₁ : Machine F} {p : Nat}, WorksOn k m m₁ → m₁.outbox = m.outbox →
      m₁.stigmergy.position? k = some p →
      m₁.replica? k = some ⟨robot, m.clock k + 1, m.value r⟩ →
      Ends (sendEntry .put k p >>= fun _ => ret0) m₁ (fun _ m' => Peer robot m'
        ∧ m'.replica? k = some ⟨robot, m.clock k + 1, m.value r⟩
        ∧ Emits (Update.message .put k ⟨robot, m.clock k + 1, m.value r⟩) m m')
        fun _ _ => True := by
    intro m₁ p w₁ hout hpos hu
    refine ends_bind ((ends_sendEntry w₁.storing (hout ▸ hp.outbox) .put hpos hu).imp
      (fun _ _ => id) fun _ _ => False.elim) fun _ m₂ h₂ => ?_
    obtain ⟨w₂, hu₂, em⟩ := h₂
    have htable : ∀ u, m₂.replica? k = some u → u.value.kind ≠ .table := by
      intro u hu'
      rw [← Option.some.inj (hu₂.symm.trans hu')]
      exact ht
    exact (ends_leaveFrame_sent hp hl (w₁.trans w₂) (em.congr hout rfl) htable none).imp
      (fun _ m' h => ⟨h.1, h.2.1.trans hu₂, h.2.2⟩) fun _ _ => id
  split
  · next p hpos =>
    obtain ⟨e, hs, -⟩ := Stigmergy.exists_of_position? hpos
    have hclock : (m.stigmergy.entries[p]?.map (·.clock)).getD 0 = m.clock k := by
      rw [clock, replica?_of_position? hpos hs, hs]
      rfl
    rw [hclock]
    refine ends_bind (ends_storeVersion hm hpos _) fun _ m₁ h₁ => ?_
    obtain ⟨w₁, hu, hpos₁, hout⟩ := h₁
    rw [update, hp.robot] at hu
    exact sent w₁ hout hpos₁ hu
  · next hpos =>
    have hclock : m.clock k = 0 := by
      rw [clock, replica?_eq_none_iff.2 hpos]
      rfl
    refine ends_bind (Q := fun _ m' => m' = m) ?_ fun _ m' he => ?_
    · cases m.stigmergy.isFull with
      | true => exact ends_throw trivial
      | false => exact ends_pure rfl
    subst he
    refine ends_bind (ends_insertVersion hm hpos _) fun _ m₁ h₁ => ends_get_bind ?_
    obtain ⟨w₁, hu, hpos₁, hout⟩ := h₁
    rw [update, hp.robot] at hu
    rw [hclock] at sent ⊢
    exact sent w₁ hout hpos₁ hu

/-- **A get.** What is held is sent to the others, as a query, and stays. -/
theorem ends_stigmergyGet (hp : Peer robot m) (hkey : m.argument? 1 = some (.string key))
    (hu : ∀ u, m.replica? key = some u → u.value.kind ≠ .table) : Ends stigmergyGet m
      (fun _ m' => Peer robot m' ∧ m'.replica? key = m.replica? key
        ∧ Emits (Update.message .query key ((m.replica? key).getD ⟨robot, 0, .nil⟩)) m m')
      fun _ _ => True := by
  have hm := hp.storing
  have hl := isTable_locals hm hkey
  refine ends_bind (ends_requireArgs hm.wellFormed hm.tidy 1) fun _ m₁ he => ?_
  subst he
  refine ends_bind (ends_stringArg hm hkey) fun k m he => ends_get_bind ?_
  obtain ⟨rfl, rfl⟩ := he
  -- the value is pushed and taken off again by the return
  have returns : ∀ {m₁ : Machine F} {x : Message Value} (r : Ref), WorksOn k m m₁ →
      m₁.replica? k = m.replica? k → Emits x m m₁ →
      Ends (push r >>= fun _ => ret1) m₁ (fun _ m' => Peer robot m'
        ∧ m'.replica? k = m.replica? k ∧ Emits x m m') fun _ _ => True := by
    intro m₁ x r w hu₁ em
    refine ends_bind (onlyStack_push r m₁) fun _ m₂ h₂ => ends_get_bind ?_
    refine ends_bind (onlyStack_require _ _ m₂) fun _ m₃ h₃ => ?_
    refine ends_bind (onlyStack_pop m₃) fun r' m₄ h₄ => ?_
    have he : m₄ = { m₁ with stack := m₄.stack } := by rw [h₄, h₃, h₂]
    have hout : m₄.outbox = m₁.outbox := by rw [he]
    obtain ⟨w', hkept⟩ : WorksOn k m₁ m₄ ∧ m₄.replica? k = m₁.replica? k :=
      worksOn_of_registers k w.storing (by rw [he])
    have hheld : m₄.replica? k = m.replica? k := hkept.trans hu₁
    exact (ends_leaveFrame_sent hp hl (w.trans w') (em.congr rfl hout) (hheld ▸ hu) (some r')).imp
      (fun _ _ h => ⟨h.1, h.2.1.trans hheld, h.2.2⟩) fun _ _ => id
  split
  · next p hpos =>
    obtain ⟨e, hs, -⟩ := Stigmergy.exists_of_position? hpos
    have hheld := replica?_of_position? hpos hs
    rw [hheld, Option.getD_some, ← hheld]
    refine ends_bind ((ends_sendEntry hm hp.outbox .query hpos hheld).imp (fun _ _ => id)
      fun _ _ => False.elim) fun _ m₁ h => ?_
    exact returns _ h.1 (h.2.1.trans hheld.symm) h.2.2
  · next hpos =>
    have hheld := replica?_eq_none_iff.2 hpos
    rw [hheld, Option.getD_none, ← hheld]
    refine ends_bind ((ends_send hp.outbox _).imp (fun _ _ => id) fun _ _ => False.elim)
      fun _ m₁ h => ?_
    obtain ⟨w, hkept⟩ := worksOn_of_registers k hm h.2
    rw [hp.robot] at h
    rw [pushNil, bind_assoc]
    exact ends_get_bind (returns _ w hkept h.1)

/-- **Updates of others.** What is held afterwards is the merge, and what is sent is what is held. -/
theorem Peer.receiveStigmergy (hp : Peer robot m) (call : Caller F) {there : Version}
    (hthere : m.heap.isValid there.value = true) :
    Ends (receiveStigmergy call op key there) m (fun _ m' => Peer robot m'
      ∧ m'.replica? key
        = Update.merge op m.stigmergy.isFull (m.replica? key) (m.update there)
      ∧ Tells key m m') fun _ _ => True := by
  refine (ends_receiveStigmergy hp.storing hp.outbox
    (fun _ _ _ _ => ⟨hp.onConflict, hp.onConflictLost⟩) hthere).imp
    (fun _ m' h => ?_) fun _ _ => id
  obtain ⟨w, hu, ht⟩ := h
  refine ⟨hp.worksOn w ?_, hu, ht⟩
  rcases ht with he | ⟨_, _, _, em⟩
  · exact he ▸ hp.outbox
  · exact em.bounded

end Machine

end SwarmVm
