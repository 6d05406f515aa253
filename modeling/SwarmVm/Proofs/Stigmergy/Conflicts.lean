import SwarmVm.Proofs.Neighbors.Kinship
import SwarmVm.Proofs.Stigmergy.Verdicts

/-!
# Conflicts that the script settles

When a script settles conflicts itself, its function runs after the entry of the key was found and
before it is changed, and it may do anything to the store. The entry is changed where it was found:
at a position in a list that may be another list by then.

A script can put values under its keys and add keys, and both leave every key in its place. It can
also start the store over (`Machine.exists_gives_stigmergyCreate`). So the position is out of date
only if the store was started over while the script was asked, which the store notes
(`Stigmergy.starts`). Then whatever entry has come to be at the position is overwritten, and if the
list got shorter, there is none, which the machine notes (`Machine.strayed`).

## Main definitions

* `Stigmergy.Continues` — a store to which keys were only added, unless it was started over
* `Machine.settle` — the part of settling a conflict in which the entry is changed
* `Machine.Rewritten` — what that does to the entries

## Main results

* `Machine.upholds_judge` — judging a conflict ends no condition that lasts
* `Machine.exists_gives_stigmergyCreate` — the store is started over
* `Machine.settles_in_entry` — which entry is changed
-/

namespace SwarmVm

/-! ### Stores that are not started over -/

namespace Stigmergy

variable {s s' : Stigmergy} {p : Nat} {e old : StigmergyEntry}

/-- Keys were only added to `s`, unless the store was started over. -/
structure Continues (s s' : Stigmergy) : Prop where
  /-- It may have been started over. -/
  starts : s.starts ≤ s'.starts
  /-- If it was not, keys were only added. -/
  keys : s'.starts = s.starts → s.keys <+: s'.keys

theorem Continues.refl (s : Stigmergy) : Continues s s := ⟨le_rfl, fun _ => List.prefix_rfl⟩

theorem Continues.congr (c : Continues s s') {s'' : Stigmergy} (hentries : s''.entries = s'.entries)
    (hstarts : s''.starts = s'.starts) : Continues s s'' := by
  refine ⟨hstarts ▸ c.starts, fun hs => ?_⟩
  have hkeys : s''.keys = s'.keys := by rw [Stigmergy.keys, Stigmergy.keys, hentries]
  rw [hkeys]
  exact c.keys (hstarts ▸ hs)

theorem Continues.replace (c : Continues s s') (hs : s'.entries[p]? = some old)
    (he : e.key = old.key) : Continues s (s'.replace p e) :=
  ⟨c.starts, fun h => (keys_replace hs he).symm ▸ c.keys h⟩

theorem Continues.add (c : Continues s s') (e : StigmergyEntry) : Continues s (s'.add e) :=
  ⟨c.starts, fun h => (c.keys h).trans (keys_add s' e ▸ List.prefix_append _ _)⟩

/-- A store that was not started over has its keys where they were. -/
theorem Continues.position? (c : Continues s s') (hs : s'.starts = s.starts) {key : NameId}
    (hp : s.position? key = some p) : s'.position? key = some p :=
  position?_of_prefix (c.keys hs) hp

end Stigmergy

namespace Machine

open Heap (Grows tableCost)
open Stigmergy (Continues)

variable {F α β : Type} {m m' : Machine F} {call : Caller F} {op : StigmergyOp} {key : NameId}
  {here there v : Version} {p n : Nat} {e : StigmergyEntry} {s : Stigmergy} {c : Site} {r : Ref}
  {i : Int16}

/-- Scripts add keys, or start the store over. -/
instance lasting_continues (s : Stigmergy) :
    Lasting (fun m : Machine F => Continues s m.stigmergy) where
  aside as c := c.congr as.entries as.starts
  store p v m hm c := by
    refine ends_get_bind ?_
    cases hs : m.stigmergy.entries[p]? with
    | none => exact ends_modify c
    | some old =>
      refine ends_bind ((replaced_replaceOwned hm.wellFormed old.value v.value).imp (fun _ _ => id)
        fun _ _ he => by rw [he]; exact c) fun r m₁ h => ends_modify ?_
      have hst : m₁.stigmergy = m.stigmergy := by rw [h.1]
      rw [hst]
      exact c.replace hs rfl
  insert key v m hm c := by
    refine ends_get_bind (ends_bind ((acquired_ownedCopy hm.wellFormed v.value).imp (fun _ _ => id)
      fun _ _ he => by rw [he]; exact c) fun r m₁ h => ends_modify ?_)
    have hst : m₁.stigmergy = m.stigmergy := by rw [h.1]
    rw [hst]
    exact c.add _
  reset {m} _ c := by
    refine ends_modify ⟨c.starts.trans (Nat.le_succ _), fun hs => ?_⟩
    have hstarts : m.stigmergy.starts + 1 = s.starts := hs
    have := c.starts
    omega

/-! ### The script is asked -/

/-- Judging a conflict ends no condition that the functions of the script do not end. -/
theorem upholds_judge {I : Machine F → Prop} [Lasting I]
    (hcall : ∀ closure args, Upholds I (call closure args)) :
    Upholds I (judge call key here there) :=
  (upholds_alloc _).bind fun _ => (upholds_chooseWinner hcall _ _ _).bind fun _ =>
    (upholds_emit _).bind fun _ => (upholds_lossToReport _ _).bind fun _ => upholds_pure _

theorem upholds_collectGarbage_continues :
    Upholds (fun m => Continues s m.stigmergy) (collectGarbage : Action F Unit) := by
  refine confined_collectGarbage.upholds fun {m} _ c => ends_collectGarbage.imp ?_ ?_
  · rintro _ _ ⟨log, rfl⟩
    exact c
  · rintro _ _ ⟨-, rfl⟩
    exact c

/-! ### The entry is changed -/

/-- The winner of a conflict is put in the entry at a position, and the entry is sent. -/
def settle (key : NameId) (p : Nat) (winner : Version) : Action F Unit := do
  storeVersion p winner
  sendEntry .put key p

theorem adopt_eq_settle (call : Caller F) (key : NameId) (p : Nat) (here there : Version) :
    adopt call key p here there = judge call key here there >>= fun out =>
      settle key p out.2.1 >>= fun _ => pure (out.1, out.2.2) := by
  simp only [adopt, settle, bind_assoc]

/-- A conflict is judged, then the entry is changed, and then the loss is reported. -/
theorem receiveStigmergy_eq_settle (hp : m.stigmergy.position? key = some p)
    (hs : m.stigmergy.entries[p]? = some e) (hclock : there.clock = e.clock)
    (hrobot : there.robot ≠ e.robot) : receiveStigmergy call op key there m
      = (judge call key e.version there >>= fun out => settle key p out.2.1 >>= fun _ =>
        reportLoss call out.1 out.2.2) m := by
  rw [receiveStigmergy_of_conflict hp hs hclock hrobot, adopt_eq_settle]
  simp only [bind_assoc, pure_bind]

/-- What becomes of the entries when the version `v` is put in the one at position `p`. It is the
entry at that position which is written, whatever key it has. -/
structure Rewritten (p : Nat) (v : Version) (m m' : Machine F) : Prop where
  /-- The machine has strayed if there is no entry at the position. -/
  strayed : m'.strayed = (m.strayed || decide (m.stigmergy.size ≤ p))
  /-- An entry at the position takes the version, and keeps its key. -/
  entry : ∀ e, m.stigmergy.entries[p]? = some e → ∃ e', m'.stigmergy.entries[p]? = some e'
    ∧ e'.key = e.key ∧ m'.update e'.version = m.update v
  /-- The other entries are the same. -/
  others : ∀ q ≠ p, m'.stigmergy.entries[q]? = m.stigmergy.entries[q]?
  /-- So are all keys. -/
  keys : m'.stigmergy.keys = m.stigmergy.keys
  /-- The store is not started over. -/
  starts : m'.stigmergy.starts = m.stigmergy.starts

/-- If the entry is that of a key, the key takes the version, and no other key is written. -/
theorem Rewritten.of_position? (st : Rewritten p v m m') (hp : m.stigmergy.position? key = some p) :
    m'.strayed = m.strayed ∧ m'.replica? key = some (m.update v)
      ∧ ∀ k ≠ key, m'.stigmergy.lookup? k = m.stigmergy.lookup? k := by
  obtain ⟨e, hs, hkey⟩ := Stigmergy.exists_of_position? hp
  obtain ⟨e', hs', -, hu⟩ := st.entry e hs
  have hpos : ∀ k, m'.stigmergy.position? k = m.stigmergy.position? k := by
    intro k
    rw [Stigmergy.position?_eq, Stigmergy.position?_eq, st.keys]
  refine ⟨?_, ?_, fun k hk => ?_⟩
  · have hlt : p < m.stigmergy.size := (Array.getElem?_eq_some_iff.1 hs).1
    rw [st.strayed, decide_eq_false (by omega), Bool.or_false]
  · rw [replica?_of_position? ((hpos key).trans hp) hs', hu]
  · rw [Stigmergy.lookup?, Stigmergy.lookup?, hpos]
    cases hq : m.stigmergy.position? k with
    | none => rfl
    | some q =>
      refine st.others q ?_
      rintro rfl
      obtain ⟨e₁, hs₁, hkey₁⟩ := Stigmergy.exists_of_position? hq
      rw [hs, Option.some.injEq] at hs₁
      exact hk (by rw [← hkey₁, ← hs₁, hkey])

/-- What the owner has now has the value of the new object. -/
theorem value_of_replaced {h h' : Heap} {old new c : Ref} (re : h.Replaced old new c h') :
    h'.value c = h.value new := by
  cases re with
  | same he => rw [he]
  | @other _ h₁ _ ac htable =>
    rw [Heap.clearPermanent, (Heap.value_setPermanent ac.grows.wellFormed.layout old c false).2]
    by_cases hk : (h.value new).kind = .table
    · have hne : h.value new ≠ .nil := by
        intro hnil
        rw [hnil] at hk
        cases hk
      rw [htable hk]
      exact (ac.grows.spares.unaltered (Heap.kind_of_value rfl hne).1).value
    · exact ac.owns.value hk

/-- The entry at the position is written. There may be no room for the copy that it owns, and then
nothing has changed. -/
theorem rewritten_storeVersion (wf : m.heap.WellFormed) (p : Nat) (v : Version) :
    Ends (storeVersion p v) m (fun _ m' => Rewritten p v m m') fun _ m' => m' = m := by
  refine ends_get_bind ?_
  cases hs : m.stigmergy.entries[p]? with
  | none =>
    have hle : m.stigmergy.size ≤ p := Array.getElem?_eq_none_iff.1 hs
    refine ends_modify ⟨?_, fun e he => ?_, fun _ _ => rfl, rfl, rfl⟩
    · rw [decide_eq_true hle, Bool.or_true]
    · rw [hs] at he
      cases he
  | some old =>
    have hlt : p < m.stigmergy.size := (Array.getElem?_eq_some_iff.1 hs).1
    refine ends_bind (replaced_replaceOwned wf old.value v.value) fun r m₁ h => ends_modify ?_
    obtain ⟨same, re⟩ := h
    have hst : m₁.stigmergy = m.stigmergy := by rw [same]
    rw [hst]
    have hget := Stigmergy.getElem?_replace hs (v.entry old.key r (m.value v.value))
    refine ⟨?_, fun e he => ?_, fun q hq => ?_, Stigmergy.keys_replace hs rfl, rfl⟩
    · rw [same, decide_eq_false (by omega), Bool.or_false]
    · obtain rfl : old = e := by rwa [hs, Option.some.injEq] at he
      exact ⟨_, (hget p).trans (if_pos rfl), rfl,
        congrArg (Update.mk v.robot v.clock) (value_of_replaced re)⟩
    · exact (hget q).trans (if_neg (Ne.symm hq))

/-- Sending an entry changes none. A position without an entry is noted. -/
theorem ends_sendEntry_registers (op : StigmergyOp) (key : NameId) (p : Nat) :
    Ends (sendEntry op key p) m (fun _ m' =>
      m' = { m with outbox := m'.outbox, log := m'.log, strayed := m'.strayed }
        ∧ m'.strayed = (m.strayed || decide (m.stigmergy.size ≤ p))) fun _ _ => False := by
  refine ends_get_bind ?_
  cases hs : m.stigmergy.entries[p]? with
  | none =>
    have hle : m.stigmergy.size ≤ p := Array.getElem?_eq_none_iff.1 hs
    exact ends_modify ⟨rfl, by rw [decide_eq_true hle, Bool.or_true]⟩
  | some e =>
    have hlt : p < m.stigmergy.size := (Array.getElem?_eq_some_iff.1 hs).1
    have hsame : m.strayed = (m.strayed || decide (m.stigmergy.size ≤ p)) := by
      rw [decide_eq_false (by omega), Bool.or_false]
    refine ends_get_bind ?_
    rcases m.outbox.append _ with ⟨evicted, outbox⟩
    refine ends_bind (ends_modify (Q := fun _ m' => m' = { m with outbox }) rfl) fun _ m₁ he => ?_
    subst he
    cases evicted with
    | none => exact ends_pure ⟨rfl, hsame⟩
    | some lost => exact ends_modify ⟨rfl, hsame⟩

theorem ends_settle (wf : m.heap.WellFormed) (key : NameId) (p : Nat) (v : Version) :
    Ends (settle key p v) m (fun _ m' => Rewritten p v m m') fun _ m' => m' = m := by
  refine ends_bind (rewritten_storeVersion wf p v) fun _ m₁ st => ?_
  refine (ends_sendEntry_registers .put key p).imp (fun _ m' h => ?_) fun _ _ => False.elim
  obtain ⟨same, hstrayed⟩ := h
  have hst : m'.stigmergy = m₁.stigmergy := by rw [same]
  have hupdate : ∀ v, m'.update v = m₁.update v := fun v => by rw [same]; rfl
  have hsize : m₁.stigmergy.size = m.stigmergy.size := by
    have hlen := congrArg List.length st.keys
    simpa [Stigmergy.keys, Stigmergy.size] using hlen
  refine ⟨?_, fun e he => ?_, fun q hq => ?_, ?_, ?_⟩
  · rw [hstrayed, st.strayed, hsize, Bool.or_assoc, Bool.or_self]
  · obtain ⟨e', he', hkey, hu⟩ := st.entry e he
    exact ⟨e', hst ▸ he', hkey, (hupdate _).trans hu⟩
  · rw [hst]
    exact st.others q hq
  · rw [hst]
    exact st.keys
  · rw [hst]
    exact st.starts

/-! ### The store is started over -/

theorem room_foldl_clearPermanent (h : Heap) (entries : List StigmergyEntry) :
    (entries.foldl (fun h e => h.clearPermanent e.value) h).freeBytes = h.freeBytes := by
  induction entries generalizing h with
  | nil => rfl
  | cons e rest ih =>
    rw [List.foldl_cons, ih, Heap.clearPermanent, Heap.freeBytes_setPermanent]

/-- Starting over gives all values free, which takes no room. -/
theorem ends_resetStigmergy (wf : m.heap.WellFormed) : Ends resetStigmergy m (fun _ m' =>
    m' = { m with heap := m'.heap, stigmergy := m'.stigmergy } ∧ Grows m.heap m'.heap
      ∧ m'.room = m.room ∧ m'.stigmergy.entries = #[]
      ∧ m'.stigmergy.starts = m.stigmergy.starts + 1) fun _ _ => False := by
  refine ends_modify ⟨rfl, ?_, ?_, rfl, rfl⟩
  · rw [← Array.foldl_toList]
    exact Heap.grows_foldl_clearPermanent wf _
  · rw [room, room, ← Array.foldl_toList]
    exact room_foldl_clearPermanent _ _

/-- The bytes for the table of functions of a store, in which its number is stored. -/
def createCost : Nat := tableCost + stigmergyMethods.length * methodCost + entryCost

/-- **The store is started over** by a call of `create` with a number, if there is room for the table
that it returns. -/
theorem exists_gives_stigmergyCreate (hc : CalledWith c 1 m)
    (harg : m.heap.arrayGet? m.locals 1 = some r) (hi : m.value r = .int i)
    (enough : createCost ≤ m.room) : ∃ t m', Gives stigmergyCreate m t m'
      ∧ m'.stigmergy.entries = #[] ∧ m'.stigmergy.starts = m.stigmergy.starts + 1 := by
  rw [createCost] at enough
  obtain ⟨_, m₀, hreset, same, g, hroom, hentries, hstarts⟩ :=
    (ends_resetStigmergy hc.sound.wellFormed).exists_ok
  have hc₀ := hc.toCalledBy.grows g (by rw [same]) (by rw [same]) (by rw [same])
  obtain ⟨t, m₁, htable, hleft⟩ :=
    (spends_methodTable hc₀.sound stigmergyMethods).exists_ok (by omega)
  obtain ⟨d₁, -⟩ := (ends_methodTable hc₀.sound (by decide)).of_ok htable
  obtain ⟨_, m₂, hfield, -⟩ :=
    (spends_setField m₁ t Builtin.id.nameId r).exists_ok (by omega)
  obtain ⟨d₂, -⟩ := (d₁.setField hc₀.sound.tidy Builtin.id.nameId r).of_ok hfield
  have hc₂ := hc₀.expands d₂.toExpands
  have deep : m₂.stack.depth < m₂.stack.capacity := by
    rw [d₂.same, same]
    exact hc.room
  obtain ⟨m', hleave, -⟩ := hc₂.exists_leaveFrame (some t)
  have hd := (handed_leaveFrame hc₂.sound.wellFormed hc₂.locals t).of_ok hleave
  have hst : m'.stigmergy = m₀.stigmergy := by rw [hd.same, d₂.same]
  have hlocal : localAt 1 m = .ok r m := hc.localAt_eq rfl harg
  have hint : intArg 1 m = .ok i m := hc.intArg_eq rfl harg hi
  refine ⟨t, m', ⟨?_, hd.top⟩, hst ▸ hentries, hst ▸ hstarts⟩
  rw [stigmergyCreate, bind_of_ok hc.requireArgs_eq, bind_of_ok hint,
    bind_of_ok hlocal, bind_of_ok hreset, bind_of_ok htable, bind_of_ok hfield,
    push_ret1_eq hc₂.sound.floor deep, hleave]

/-! ### Which entry is changed -/

variable [HostFunctions F]

/-- **Which entry a conflict is settled in.** An update conflicts with the entry of its key, which is
at position `p`. The conflict is judged, which is when the script is asked, then the entry at that
position is written and sent, and then the loss is reported. When the entry is about to be written,
whatever the script has done meanwhile, it is the one at position `p` that is written; it keeps its
key, and no other entry is written. There is none at that position if the list got shorter.

If the script has not started the store over while it was asked, all is well: the position is that
of the conflicting key, so the key takes the version that has won, no index is out of range, and no
other key is written. -/
theorem settles_in_entry (op : StigmergyOp) (hm : m.Standard)
    (hp : m.stigmergy.position? key = some p) (he : m.stigmergy.entries[p]? = some e)
    (hclock : there.clock = e.clock) (hrobot : there.robot ≠ e.robot) :
    receiveStigmergy (callClosure n) op key there m
        = (judge (callClosure n) key e.version there >>= fun out =>
          settle key p out.2.1 >>= fun _ => reportLoss (callClosure n) out.1 out.2.2) m
      ∧ ∀ out m₁, judge (callClosure n) key e.version there m = .ok out m₁ →
        Ends (settle key p out.2.1) m₁ (fun _ m₂ => Rewritten p out.2.1 m₁ m₂) (fun _ m₂ => m₂ = m₁)
        ∧ (m₁.stigmergy.starts = m.stigmergy.starts → m₁.stigmergy.position? key = some p
          ∧ ∀ m₂, settle key p out.2.1 m₁ = .ok () m₂ → m₂.strayed = m₁.strayed
            ∧ m₂.replica? key = some (m₁.update out.2.1)
            ∧ ∀ k ≠ key, m₂.stigmergy.lookup? k = m₁.stigmergy.lookup? k) := by
  refine ⟨receiveStigmergy_eq_settle hp he hclock hrobot, fun out m₁ hrun => ?_⟩
  have judged : Upholds (fun m' => Continues m.stigmergy m'.stigmergy)
      (judge (callClosure n) key e.version there : Action F _) :=
    upholds_judge (upholds_callClosure upholds_collectGarbage_continues n)
  obtain ⟨w, c⟩ := (judged m hm (.refl _)).of_ok hrun
  have settled := ends_settle w.standard.wellFormed key p out.2.1
  refine ⟨settled, fun hs => ?_⟩
  have hp₁ := c.position? hs hp
  exact ⟨hp₁, fun m₂ hrun₂ => (settled.of_ok hrun₂).of_position? hp₁⟩

/-- The script has not started the store over, and its choice is put in the entry of the key. -/
theorem settles_asked : asked.Standard ∧ asked.stigmergy.position? 34 = some 1
    ∧ ∃ out m₁ m₂, judge (callClosure 8) 34 ⟨1, 3, 1⟩ ⟨2, 4, 1⟩ asked = .ok out m₁
      ∧ settle 34 1 out.2.1 m₁ = .ok () m₂ ∧ m₂.strayed = false
      ∧ m₂.replica? 34 = some (m₁.update out.2.1)
      ∧ m₂.stigmergy.lookup? 35 = m₁.stigmergy.lookup? 35 := by
  have hm := standard_asked.1
  have hp := asked_evaluates.1
  obtain ⟨k, m', -, hadopt, hstarts, hstrayed⟩ := adopt_asked
  rw [adopt_eq_settle] at hadopt
  obtain ⟨out, m₁, hjudge, hrest⟩ := exists_of_bind_ok hadopt
  obtain ⟨⟨⟩, m₂, hsettle, hpure⟩ := exists_of_bind_ok hrest
  obtain rfl : m₂ = m' := (EStateM.Result.ok.inj hpure).2
  obtain ⟨settled, placed⟩ := (settles_in_entry .put hm hp rfl rfl (by decide)).2 out m₁ hjudge
  obtain ⟨-, changed⟩ := placed ((settled.of_ok hsettle).starts.symm.trans hstarts)
  obtain ⟨-, hheld, hothers⟩ := changed m₂ hsettle
  exact ⟨hm, hp, out, m₁, m₂, hjudge, hsettle, hstrayed, hheld, hothers 35 (by decide)⟩

end Machine

end SwarmVm
