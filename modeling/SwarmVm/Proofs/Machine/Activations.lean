import SwarmVm.Proofs.Machine.Records

/-!
# The activation records of all open calls

Each open call has saved the activation record of its caller on the stack, one entry below the
return address, and below that the floor of the caller, which says where the next record is. Read
off in this way, the records of a machine are the locals of its calls, the current one first. Work
inside a call leaves the list as it is, a call puts its new record in front, and a return takes the
first one off.

## Main definitions

* `Machine.savedRecords`, `Machine.records` — the records that are saved, and all of them

## Main results

* `Machine.Orderly.records_within`, `Machine.Orderly.opened`, `Machine.Orderly.resumed` — what
  becomes of the records
* `Machine.Orderly.held` — collections start from them
-/

namespace SwarmVm

namespace Machine

variable {F : Type} {entry m m' : Machine F} {c : Site} {sites : List Site} {h : Heap}
  {slots : Array Ref}

/-- The floor that an object of the bookkeeping names. -/
def namedFloor (h : Heap) (r : Ref) : Nat := ((h.value r).asInt?.getD 0).toUInt16.toNat

/-- The activation records that the uppermost `n` calls have saved, when the floor is at `base`. -/
def savedRecords (h : Heap) (slots : Array Ref) : Nat → Nat → List Ref
  | 0, _ => []
  | n + 1, base =>
    slots.getD (base - 2) 0 :: savedRecords h slots n (namedFloor h (slots.getD (base - 3) 0))

/-- The current activation record, and those that are saved, the last caller first. -/
def records (m : Machine F) : List Ref :=
  m.locals :: savedRecords m.heap m.stack.slots m.frameDepth m.stack.base

theorem locals_mem_records (m : Machine F) : m.locals ∈ m.records := List.mem_cons_self

theorem length_savedRecords (n base : Nat) : (savedRecords h slots n base).length = n := by
  induction n generalizing base with
  | zero => rfl
  | succ n ih => rw [savedRecords, List.length_cons, ih]

/-- Inside a call the current record is not the last one. -/
theorem locals_mem_dropLast (hopen : 0 < m.frameDepth) : m.locals ∈ m.records.dropLast := by
  rw [records, List.dropLast_cons_of_ne_nil]
  · exact List.mem_cons_self
  · exact List.ne_nil_of_length_pos (by rwa [length_savedRecords])

theorem records_of_idle (idle : m.frameDepth = 0) : m.records = [m.locals] := by
  rw [records, idle]
  rfl

/-! ### Callers -/

theorem namedFloor_of_value {r : Ref} {base : Nat} (hv : h.value r = .int (Int16.ofNat base))
    (hb : base ≤ 65535) : namedFloor h r = base := by
  rw [namedFloor, hv]
  exact toNat_ofNat_toUInt16 hb

/-- What is saved are the records of the callers that wait. -/
theorem savedRecords_of_waiting (hsize : slots.size ≤ 65535) : ∀ {sites : List Site} {c : Site},
    c.Saved h slots → Waiting h slots c sites →
    savedRecords h slots (sites.length + 1) (c.depth + 3) = (c :: sites).map Site.locals
  | [], c, saved, _ => by
    rw [List.length_nil, savedRecords, Array.getD_eq_getD_getElem?,
      show c.depth + 3 - 2 = c.depth + 1 by omega, saved.locals]
    rfl
  | c' :: rest, c, saved, ⟨hbase, saved', _, waiting⟩ => by
    obtain ⟨r, hr, hv⟩ := saved.base
    have hlt : c.depth < slots.size := (Array.getElem?_eq_some_iff.1 hr).1
    have hfloor := saved.floor
    have hnamed : namedFloor h (slots.getD (c.depth + 3 - 3) 0) = c'.depth + 3 := by
      rw [Array.getD_eq_getD_getElem?, Nat.add_sub_cancel, hr, Option.getD_some,
        namedFloor_of_value hv (by omega), hbase]
    rw [List.length_cons, savedRecords, hnamed, savedRecords_of_waiting hsize saved' waiting,
      Array.getD_eq_getD_getElem?, show c.depth + 3 - 2 = c.depth + 1 by omega, saved.locals]
    rfl

theorem InCall.records (ic : InCall entry c sites m) (frameDepth : entry.frameDepth = 0) :
    m.records = m.locals :: (c :: sites).map Site.locals := by
  have hsize : m.stack.slots.size ≤ 65535 := ic.standard.ceiling.trans ic.standard.capacity
  rw [Machine.records, ic.frameDepth, frameDepth, Nat.zero_add, ic.called.base,
    savedRecords_of_waiting hsize ic.called.saved ic.waiting]

/-- The records of the callers are on the stack. -/
theorem Waiting.locals : ∀ {sites : List Site} {c : Site}, Waiting h slots c sites →
    c.Saved h slots → ∀ r ∈ (c :: sites).map Site.locals,
      ∃ i < c.depth + 3, slots[i]? = some r
  | sites, c, waiting, saved, r, hr => by
    rw [List.map_cons, List.mem_cons] at hr
    rcases hr with rfl | hr
    · exact ⟨c.depth + 1, by omega, saved.locals⟩
    · cases sites with
      | nil => cases hr
      | cons c' rest =>
        obtain ⟨hbase, saved', -, waiting'⟩ := waiting
        have hfloor := saved.floor
        obtain ⟨i, hi, hs⟩ := Waiting.locals waiting' saved' r hr
        exact ⟨i, by omega, hs⟩

/-! ### Orderly machines -/

namespace Orderly

/-- Collections start from the records. -/
theorem held (hm : m.Orderly) : ∀ r ∈ m.records, r = m.locals ∨ HeldBelow m.stack.base m r := by
  intro r hr
  cases hm with
  | idle standing =>
    rw [records_of_idle standing.frameDepth, List.mem_singleton] at hr
    exact .inl hr
  | inCall frameDepth chain =>
    rw [chain.records frameDepth, List.mem_cons] at hr
    refine hr.imp_right fun hr => ?_
    rw [HeldBelow, chain.called.base]
    exact Waiting.locals chain.waiting chain.called.saved r hr

theorem atSite (hm : m.Orderly) : m.AtSite := by
  cases hm with
  | idle standing => exact .inl standing.frameDepth
  | inCall _ chain => exact .inr ⟨_, chain.called⟩

/-- Work inside a call leaves the records as they are. -/
theorem records_within (hm : m.Orderly) (wi : Within m m') : m'.records = m.records := by
  cases hm with
  | idle standing =>
    rw [records_of_idle standing.frameDepth, records_of_idle (standing.within wi).frameDepth,
      wi.locals]
  | inCall frameDepth chain =>
    rw [chain.records frameDepth, (chain.within wi).records frameDepth, wi.locals]

/-- A call puts its record in front. -/
theorem opened {depth : Nat} (hm : m.Orderly) (op : Opened depth m m')
    (floor : m.stack.base ≤ depth) (top : depth ≤ m.stack.depth) :
    m'.Orderly ∧ m'.records = m'.locals :: m.records := by
  cases hm with
  | inCall frameDepth chain =>
    have chain' := chain.opened op floor
    refine ⟨.inCall frameDepth chain', ?_⟩
    rw [chain.records frameDepth, chain'.records frameDepth]
    rfl
  | idle standing =>
    have ld := loaded_truncate standing.toStandard floor top
    rw [← OperandStack.depth_truncate top] at op
    have chain' := (ld.opened op).inCall
    refine ⟨.inCall ?_ chain', ?_⟩
    · exact standing.frameDepth
    · rw [records_of_idle standing.frameDepth, chain'.records standing.frameDepth]
      rfl

/-- A return takes the first record off. -/
theorem resumed (hm : m.Orderly) (re : ∀ c, Called c m → Resumed c m m')
    (hdepth : m'.frameDepth + 1 = m.frameDepth) :
    m'.Orderly ∧ m'.records = m.records.tail := by
  cases hm with
  | idle standing =>
    rw [standing.frameDepth] at hdepth
    omega
  | @inCall entry _ c sites frameDepth chain =>
    have re := re c chain.called
    rw [chain.records frameDepth, List.tail_cons, List.map_cons, ← re.locals]
    cases sites with
    | nil =>
      have returned := chain.returned re
      have idle := returned.frameDepth.trans frameDepth
      exact ⟨.idle ⟨returned.standard, idle⟩, records_of_idle idle⟩
    | cons c' rest =>
      have chain' := chain.resumed re
      exact ⟨.inCall frameDepth chain', chain'.records frameDepth⟩

end Orderly

end Machine

end SwarmVm
