import SwarmVm.Proofs.Heap.Lists

/-!
# How much room is enough

An operation fails for want of room only if what it asks for is not there. So it is enough to count:
an object takes five bytes, a segment twenty-two, and a free slot costs nothing. An operation that
asks for several of them succeeds if there is room for all, and leaves the rest.

The count is an upper bound. Storing a pair takes a segment only when the table has no free place,
and is counted as if it always did.

## Main definitions

* `Spends` — an operation that succeeds with so much room

## Main results

* `Heap.spends_allocValue`, `Heap.spends_tableNew`, `Heap.spends_arrayNew` — new objects
* `Heap.spends_tableSet`, `Heap.spends_arrayPush_nil` — what is put into them
-/

namespace SwarmVm

section

variable {ε σ α β : Type} {room : σ → Nat} {n k : Nat} {x : EStateM ε σ α} {s : σ}

/-- The operation takes `n` of the room at most: it fails only if there is less. -/
def Spends (room : σ → Nat) (n : Nat) (x : EStateM ε σ α) (s : σ) : Prop :=
  Ends x s (fun _ s' => room s ≤ room s' + n) fun _ _ => room s < n

namespace Spends

theorem exists_ok (hx : Spends room n x s) (enough : n ≤ room s) :
    ∃ a s', x s = .ok a s' ∧ room s ≤ room s' + n := by
  cases hs : x s with
  | ok a s' => exact ⟨a, s', rfl, hx.of_ok hs⟩
  | error e s' => exact absurd (hx.of_error hs) (Nat.not_lt.2 enough)

theorem mono (hx : Spends room n x s) (hle : n ≤ k) : Spends room k x s :=
  hx.imp (fun _ _ h => h.trans (Nat.add_le_add_left hle _)) fun _ _ h => h.trans_le hle

theorem pure (a : α) : Spends room 0 (pure a : EStateM ε σ α) s := ends_pure le_rfl

theorem modify {f : σ → σ} (same : room (f s) = room s) :
    Spends room 0 (modify f : EStateM ε σ PUnit) s := ends_modify same.ge

/-- Operations one after the other take what each of them takes. -/
theorem bind {f : α → EStateM ε σ β} (hx : Spends room n x s)
    (hf : ∀ a s', x s = .ok a s' → Spends room k (f a) s') : Spends room (n + k) (x >>= f) s := by
  rw [Spends, ends_iff]
  cases hs : x s with
  | error e s' =>
    rw [bind_of_error hs]
    exact (hx.of_error hs).trans_le (Nat.le_add_right n k)
  | ok a s' =>
    have hle := hx.of_ok hs
    have rest := hf a s' hs
    rw [bind_of_ok hs]
    cases hs' : f a s' with
    | ok b s'' =>
      have hle' := rest.of_ok hs'
      change room s ≤ room s'' + (n + k)
      omega
    | error e s'' =>
      have hlt := rest.of_error hs'
      change room s < n + k
      omega

/-- What follows takes nothing. -/
theorem bind_free {f : α → EStateM ε σ β} (hx : Spends room n x s)
    (hf : ∀ a s', x s = .ok a s' → Spends room 0 (f a) s') : Spends room n (x >>= f) s :=
  hx.bind hf

/-- What comes first takes nothing. -/
theorem free_bind {f : α → EStateM ε σ β} (hx : Spends room 0 x s)
    (hf : ∀ a s', x s = .ok a s' → Spends room n (f a) s') : Spends room n (x >>= f) s :=
  (hx.bind hf).mono (Nat.zero_add n).le

theorem get_bind {f : σ → EStateM ε σ β} (hf : Spends room n (f s) s) :
    Spends room n (get >>= f) s := ends_get_bind hf

end Spends

end

namespace Heap

variable {h h' : Heap} {a : Ref} {lo hi : Nat}

/-! ### Writing -/

/-- Writing does not move the edges. -/
theorem WritesIn.freeBytes (w : WritesIn lo hi h h') : h'.freeBytes = h.freeBytes := by
  rw [Heap.freeBytes, Heap.freeBytes, w.objectEnd, w.segmentStart]

theorem freeBytes_setWord (h : Heap) (offset : Nat) (w : UInt16) :
    (h.setWord offset w).freeBytes = h.freeBytes :=
  (writesIn_setWord h offset w).freeBytes

theorem freeBytes_setElement (h : Heap) (s : SegRef) (slot : Nat) (e : Option Ref) :
    (h.setElement s slot e).freeBytes = h.freeBytes := by
  simp only [setElement, freeBytes_setWord]

theorem freeBytes_setNext (h : Heap) (s next : SegRef) :
    (h.setNext s next).freeBytes = h.freeBytes := by
  rw [setNext, setLink, freeBytes_setWord]

theorem freeBytes_freeSegment (h : Heap) (s : SegRef) :
    (h.freeSegment s).freeBytes = h.freeBytes := by
  rw [freeSegment]
  split
  · rw [setLink, freeBytes_setWord]
  · rfl

theorem freeBytes_setPermanent (h : Heap) (r : Ref) (permanent : Bool) :
    (h.setPermanent r permanent).freeBytes = h.freeBytes := by
  rw [setPermanent]
  split
  · exact (writesIn_setHeader h r _).freeBytes
  · rfl

theorem freeBytes_writePair (h : Heap) (p : PairSlot) (key value : Ref) :
    (h.writePair p key value).freeBytes = h.freeBytes := by
  rw [writePair, setFieldValue, freeBytes_setElement, setKey, freeBytes_setElement]

theorem freeBytes_unlinkSegment (h : Heap) (t : Ref) (s : SegRef) :
    (h.unlinkSegment t s).freeBytes = h.freeBytes := by
  rw [unlinkSegment]
  split
  · rw [freeBytes_freeSegment, freeBytes_setNext]
  · split
    · rfl
    · rw [freeBytes_freeSegment, setTableHead, freeBytes_setWord]

theorem freeBytes_erasePair (h : Heap) (t : Ref) (p : PairSlot) :
    (h.erasePair t p).freeBytes = h.freeBytes := by
  have emptied : ((h.setKey p none).setFieldValue p none).freeBytes = h.freeBytes := by
    rw [setFieldValue, freeBytes_setElement, setKey, freeBytes_setElement]
  simp only [erasePair]
  split
  · rw [freeBytes_unlinkSegment, emptied]
  · exact emptied

/-! ### Slots -/

theorem spends_allocSlot (h : Heap) : Spends freeBytes objectSize allocSlot h := by
  rw [Spends, ends_iff, allocSlot]
  cases hf : h.freeSlot? with
  | some i =>
    change h.freeBytes ≤ (h.initObject _).freeBytes + objectSize
    rw [(writesIn_initObject h _).freeBytes]
    exact Nat.le_add_right _ _
  | none =>
    by_cases room : h.objectEnd + objectSize ≤ h.segmentStart
    · simp only [room, if_true]
      change h.freeBytes ≤ (h.withObjectSlot.initObject _).freeBytes + objectSize
      rw [(writesIn_initObject h.withObjectSlot _).freeBytes]
      change h.segmentStart - h.objectEnd
        ≤ h.segmentStart - (h.objectEnd + objectSize) + objectSize
      omega
    · simp only [room, if_false]
      rw [freeBytes]
      rw [objectSize] at room ⊢
      omega

theorem spends_allocSegment (h : Heap) : Spends freeBytes segmentSize allocSegment h := by
  rw [Spends, ends_iff, allocSegment]
  cases hf : h.freeSegment? with
  | some i =>
    change h.freeBytes ≤ (h.initSegment _).freeBytes + segmentSize
    rw [(writesIn_initSegment h _).freeBytes]
    exact Nat.le_add_right _ _
  | none =>
    by_cases room : h.objectEnd + segmentSize ≤ h.segmentStart
    · simp only [room, if_true]
      change h.freeBytes ≤ (h.withSegmentSlot.initSegment _).freeBytes + segmentSize
      rw [(writesIn_initSegment h.withSegmentSlot _).freeBytes]
      change h.segmentStart - h.objectEnd
        ≤ h.segmentStart - segmentSize - h.objectEnd + segmentSize
      omega
    · simp only [room, if_false]
      rw [freeBytes]
      rw [segmentSize] at room ⊢
      omega

/-! ### New objects -/

/-- The bytes of a table and its first segment. -/
def tableCost : Nat := objectSize + segmentSize

theorem spends_allocValue (h : Heap) (v : Value) : Spends freeBytes objectSize (allocValue v) h :=
  (spends_allocSlot h).bind_free fun r h' _ =>
    (Spends.modify (writesIn_setValue h' r v).freeBytes).bind_free fun _ _ _ => .pure r

theorem spends_tableNew (h : Heap) : Spends freeBytes tableCost tableNew h := by
  refine (spends_allocSlot h).bind fun r h₁ _ => .get_bind ?_
  have segment := spends_allocSegment h₁
  cases hs : allocSegment h₁ with
  | error e h₂ =>
    exact ends_bind (ends_set (Q := fun _ _ => True) trivial) fun _ _ _ =>
      ends_throw (segment.of_error hs)
  | ok s h₂ =>
    refine ends_bind (ends_set (Q := fun _ h' => h' = h₂.setValue r (.table ⟨s, false, false⟩)) rfl)
      fun _ h' he => ends_pure ?_
    rw [he, (writesIn_setValue h₂ r _).freeBytes]
    exact segment.of_ok hs

theorem spends_arrayNew (h : Heap) : Spends freeBytes tableCost arrayNew h :=
  (spends_tableNew h).bind_free fun r h' _ =>
    (Spends.modify (writesIn_setHeader h' r _).freeBytes).bind_free fun _ _ _ => .pure r

/-! ### Pairs and elements -/

theorem spends_insertPair (h : Heap) (t key value : Ref) :
    Spends freeBytes segmentSize (insertPair t key value) h := by
  refine .get_bind ?_
  cases h.freePair? t with
  | some p => exact (Spends.modify (freeBytes_writePair h p key value)).mono (Nat.zero_le _)
  | none =>
    refine .get_bind ((spends_allocSegment h).bind_free fun s h₁ _ => ?_)
    exact (Spends.modify (freeBytes_setNext h₁ _ s)).bind_free fun _ h₂ _ =>
      .modify (freeBytes_writePair h₂ ⟨s, 0⟩ key value)

/-- Storing takes one segment at most. -/
theorem spends_tableSet (h : Heap) (t key value : Ref) :
    Spends freeBytes segmentSize (tableSet t key value) h := by
  have nothing : ∀ {x : HeapM Unit}, Spends freeBytes 0 x h → Spends freeBytes segmentSize x h :=
    fun hx => hx.mono (Nat.zero_le _)
  refine .get_bind ?_
  split
  · exact nothing (.pure _)
  · split
    · refine nothing (ends_set ?_)
      rw [freeBytes_erasePair, Nat.add_zero]
    · next p _ _ =>
      refine nothing (ends_set ?_)
      rw [setFieldValue, freeBytes_setElement, Nat.add_zero]
    · exact nothing (.pure _)
    · exact spends_insertPair h t key value

/-- The first element of an array goes to a segment that is there. -/
theorem spends_arrayPush_nil (ha : h.Packed a []) (r : Ref) :
    Spends freeBytes 0 (arrayPush a r) h := by
  have hlength : 0 < (h.chain a).length := by
    rw [ha.length_chain]
    decide
  have hfirst : h.segmentOf? a (h.arraySize a) = some (h.chain a)[0] := by
    rw [ha.arraySize, segmentOf?]
    exact List.getElem?_eq_getElem hlength
  refine .get_bind ?_
  simp only [hfirst]
  exact .modify (freeBytes_setElement h _ _ _)

end Heap

end SwarmVm
