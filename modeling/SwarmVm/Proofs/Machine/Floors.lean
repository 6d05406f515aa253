import SwarmVm.Proofs.Machine.Confined
import SwarmVm.Proofs.Machine.Fresh

/-!
# The floor of a caller

A call saves the floor of its caller as an integer object. Such an object has sixteen bits, and a
return reads it back without a sign. So a floor comes back as it was exactly if it fits in sixteen
bits, and modulo 65536 otherwise. The other registers come back in any case.

The depth of the stack is a setting without an upper bound. Up to a capacity of 65538, the
bookkeeping of a call leaves no room for a caller whose floor does not fit.

## Main definitions

* `Machine.CalledBy` — a machine in a call, at any depth of the stack
* `Machine.deepCaller` — a machine that is about to make a call at a given depth

## Main results

* `Machine.restores_floor_iff` — when a return restores the floor
* `Machine.floor_wraps` — a floor that is lost
-/

namespace SwarmVm

/-- What is saved of a number that need not fit in sixteen bits. -/
theorem toNat_toUInt16_ofNat (n : Nat) : (Int16.ofNat n).toUInt16.toNat = n % 65536 := by
  change (BitVec.ofNat 16 n).toNat = n % 65536
  rw [BitVec.toNat_ofNat]

namespace Machine

open Heap (Arbitrary)

variable {F : Type} {m m₁ m' : Machine F} {c : Site} {target : Target}

/-- The machine is in a call that `c` has made: the bookkeeping of the call is below the floor. -/
structure CalledBy (c : Site) (m : Machine F) : Prop where
  /-- The machine is sound. -/
  sound : m.Sound
  /-- The bookkeeping is below the floor. -/
  base : m.stack.base = c.depth + 3
  /-- It is that of the caller. -/
  saved : c.Saved m.heap m.stack.slots
  /-- The activation record is there. -/
  locals : m.heap.isValid m.locals = true
  /-- A call is open. -/
  frameDepth : 0 < m.frameDepth

/-- `m'` comes from `m`, which was called by `c`, by returning. The floor is that of the caller as
far as sixteen bits go, and the other registers are those of the caller. -/
structure BackTo (c : Site) (m m' : Machine F) : Prop where
  /-- The floor is restored modulo sixteen bits. -/
  base : m'.stack.base = c.base % 65536
  /-- The result is on the stack of the caller. -/
  depth : m'.stack.depth = c.depth + 1
  /-- The activation record is that of the caller. -/
  locals : m'.locals = c.locals
  /-- It goes on behind the call. -/
  pc : m'.pc = c.pc
  /-- One call less is open. -/
  frameDepth : m'.frameDepth + 1 = m.frameDepth

/-- A return succeeds wherever the bookkeeping of the call is in place. -/
theorem CalledBy.exists_leaveFrame (hc : CalledBy c m) (result : Option Ref) :
    ∃ m', leaveFrame result m = .ok () m' ∧ BackTo c m m' := by
  obtain ⟨base, hbase, hi⟩ := hc.saved.base
  obtain ⟨address, haddress, hj⟩ := hc.saved.address
  have floor := hc.sound.floor
  have hfloor := hc.saved.floor
  have hbelow := hc.base
  have returns : Ends (leaveFrame result) m _ fun _ _ => False :=
    ends_leaveFrame hc.sound.wellFormed hc.frameDepth hc.base floor hc.sound.ceiling hc.locals
      hbase hi hc.saved.locals haddress hj
  have hmin : min (Int16.ofNat c.base).toUInt16.toNat c.depth = c.base % 65536 := by
    rw [toNat_toUInt16_ofNat]
    exact Nat.min_eq_left ((Nat.mod_le _ _).trans hfloor)
  have hcut := OperandStack.depth_truncate (s := m.stack) (d := c.depth) (by omega)
  rw [OperandStack.depth] at hcut
  obtain ⟨⟨⟩, _, hs, rfl⟩ := returns.exists_ok
  refine ⟨_, hs, hmin, ?_, rfl, rfl, Nat.sub_add_cancel hc.frameDepth⟩
  exact (Array.size_push _).trans (congrArg (· + 1) hcut)

/-- Opening a call saves the registers of the caller, whatever the depth of the stack. -/
theorem Entered.calledBy {argc : Nat} {record base address : Ref}
    (en : Entered Arbitrary m target argc record base address m₁) :
    CalledBy (m.siteAt (m.stack.depth - argc - 2)) (m₁.withFrame argc record base address) := by
  have hsound := en.still.reliable.sound
  have hdepth : (m.stack.opened argc base m₁.locals address).depth = m.stack.depth - argc - 2 + 3 :=
    OperandStack.depth_opened
  refine ⟨⟨hsound.wellFormed, hsound.tidy, ?_, ?_⟩, ?_, en.saved, en.record.2.1, Nat.succ_pos _⟩
  · rw [withFrame, en.still.stack]
    exact hdepth.ge
  · rw [withFrame, en.still.stack]
    exact hdepth.trans_le en.room
  · rw [withFrame, en.still.stack]
    rfl

/-- **The floor of the caller.** A sound machine calls a closure, with a stack of any capacity and
any depth. From then on, as long as the bookkeeping of the call is in place, a return succeeds. It
restores the floor of the caller modulo 65536, so the floor is the same exactly if it is less than
that. It always is where the capacity is at most 65538. -/
theorem restores_floor_iff (hm : m.Sound) (hcall : enter m = .ok target m₁) :
    ∃ argc, m.Operands argc ∧ CalledBy (m.siteAt (m.stack.depth - argc - 2)) m₁
      ∧ ∀ {m₂ : Machine F} (result : Option Ref),
        CalledBy (m.siteAt (m.stack.depth - argc - 2)) m₂ →
        ∃ m₃, leaveFrame result m₂ = .ok () m₃
          ∧ BackTo (m.siteAt (m.stack.depth - argc - 2)) m₂ m₃
          ∧ (m₃.stack.base = m.stack.base ↔ m.stack.base < 65536)
          ∧ (m.stack.capacity ≤ 65538 → m₃.stack.base = m.stack.base) := by
  obtain ⟨argc, record, base, address, m₀, en, rfl⟩ :=
    (entered_enter Heap.reliance_arbitrary hm.reliable).of_ok hcall
  refine ⟨argc, ⟨en.count, en.operands⟩, en.calledBy, fun {m₂} result hc => ?_⟩
  obtain ⟨m₃, hs, back⟩ := hc.exists_leaveFrame result
  have hbase : m₃.stack.base = m.stack.base % 65536 := back.base
  have hiff : m₃.stack.base = m.stack.base ↔ m.stack.base < 65536 := by
    rw [hbase, Nat.mod_eq_iff_lt (by decide)]
  refine ⟨m₃, hs, back, hiff, fun hcap => hiff.2 ?_⟩
  have hroom := en.room
  have hfloor : m.stack.base ≤ m.stack.depth - argc - 2 := en.calledBy.saved.floor
  omega

/-! ### A caller at any depth -/

/-- The heap of a machine that is about to make a call, with the number of arguments and a closure
in it. -/
@[irreducible] def callHeap : Heap :=
  [.allocValue (.int 0), .allocValue (.closure (.ofCode 0))].foldl Heap.Request.perform smallHeap

theorem callHeap_eq : callHeap
    = .laidOut (coreValues ++ [(.int 0, false), (.closure (.ofCode 0), false)]) 96
      coreSegments := by
  unfold callHeap
  rw [smallHeap_eq]
  exact Heap.SameBytes.eq (by decide +kernel)

/-- Settings with room for a call at the depth `n`. -/
def deepSettings (n : Nat) : Settings := { heapSize := 192, stackSize := n + 32 }

/-- A machine that is about to call a function without arguments, in a call whose floor is `n`. -/
def deepCaller (n : Nat) : Machine Empty :=
  { blank (deepSettings n) 0 1 2 3 callHeap with
    code := #[Opcode.ret0.byte]
    stack := {
      slots := ((Array.replicate n 0).push 4).push 5
      capacity := (deepSettings n).stackSize
      base := n } }

theorem depth_deepCaller (n : Nat) : (deepCaller n).stack.depth = n + 2 := by
  simp [OperandStack.depth, deepCaller]

theorem frameLength_deepCaller (n : Nat) : (deepCaller n).stack.frameLength = 2 := by
  rw [OperandStack.frameLength, depth_deepCaller]
  exact Nat.add_sub_cancel_left n 2

theorem sound_deepCaller (n : Nat) : (deepCaller n).Sound := by
  have hl : smallHeap.Supports [3, 2, 1, 0] :=
    (ends_coreObjects (by decide)).of_ok coreObjects_small
  have wf : callHeap.WellFormed ∧ callHeap.Tidy := by
    unfold callHeap
    exact Heap.Request.wellFormed_foldl hl.wellFormed hl.tidy (by simp [Heap.Request.Allowed])
  refine ⟨wf.1, wf.2, ?_, ?_⟩
  · rw [depth_deepCaller]
    exact Nat.le_add_right n 2
  · rw [depth_deepCaller]
    exact Nat.add_le_add_left (by decide) n

/-- What is on top of the stack. -/
theorem peek_deepCaller (n : Nat) : peek 0 (deepCaller n) = .ok 5 (deepCaller n)
    ∧ peek 1 (deepCaller n) = .ok 4 (deepCaller n) := by
  constructor
  · rw [peek, OperandStack.peek, frameLength_deepCaller, if_pos (by decide), depth_deepCaller]
    simp [deepCaller, Array.getElem_push]
  · rw [peek, OperandStack.peek, frameLength_deepCaller, if_pos (by decide), depth_deepCaller]
    simp [deepCaller, Array.getElem_push]

theorem onHeap_of_ok {α : Type} {x : HeapM α} {a : α} {h : Heap} (hx : x m.heap = .ok a h) :
    onHeap x m = .ok a { m with heap := h } := by
  rw [onHeap]
  simp only [detachHeap, hx]

/-- There is room for the activation record, a saved floor and the return address. -/
def hasRoomFor (floor : Int16) : Bool :=
  answersWith (Heap.arrayClone 1) callHeap fun _ h₁ =>
    answersWith (Heap.allocValue (.int floor)) h₁ fun _ h₂ =>
      answersWith (Heap.allocValue (.int 0)) h₂ fun _ _ => true

/-- The call is opened at any depth: what is saved of the floor is all that depends on it. -/
theorem exists_enter_deepCaller {n : Nat} (hmade : hasRoomFor (Int16.ofNat n) = true) :
    ∃ m', enter (deepCaller n) = .ok (.code 0) m' := by
  obtain ⟨record, h₁, hrecord, hmade⟩ := exists_of_answersWith hmade
  obtain ⟨base, h₂, hbase, hmade⟩ := exists_of_answersWith hmade
  obtain ⟨address, h₃, haddress, -⟩ := exists_of_answersWith hmade
  have hvalues : callHeap.value 5 = .closure (.ofCode 0) ∧ callHeap.value 4 = .int 0
      ∧ callHeap.isValid 1 = true := by
    rw [callHeap_eq]
    decide +kernel
  obtain ⟨hclosure, hcount, hone⟩ := hvalues
  have hclosure : orFail ((deepCaller n).value 5).asClosure? .type (deepCaller n)
      = .ok (.ofCode 0) (deepCaller n) := by
    rw [show (deepCaller n).value 5 = .closure (.ofCode 0) from hclosure]
    rfl
  have hargc : argumentCount 4 (deepCaller n) = .ok 0 (deepCaller n) := by
    rw [argumentCount, get_bind_apply, show (deepCaller n).value 4 = .int 0 from hcount]
    change (require (decide (0 + 2 ≤ (deepCaller n).stack.frameLength)) .stack >>= fun _ =>
      (pure 0 : Action Empty Nat)) (deepCaller n) = .ok 0 (deepCaller n)
    rw [frameLength_deepCaller]
    rfl
  have hclone : arrayClone 1 (deepCaller n) = .ok record { deepCaller n with heap := h₁ } := by
    rw [arrayClone, bind_of_ok (touch_eq (sound_deepCaller n).wellFormed fun _ => hone)]
    exact onHeap_of_ok hrecord
  have hnone : pushArguments record 2 0 { deepCaller n with heap := h₁ }
      = .ok () { deepCaller n with heap := h₁ } := rfl
  have hbase : alloc (.int (Int16.ofNat n)) { deepCaller n with heap := h₁ }
      = .ok base { deepCaller n with heap := h₂ } := onHeap_of_ok hbase
  have haddress : alloc (.int 0) { deepCaller n with heap := h₂ }
      = .ok address { deepCaller n with heap := h₃ } := onHeap_of_ok haddress
  have hroom : (deepCaller n).stack.hasRoom 1 = true := by
    rw [OperandStack.hasRoom, depth_deepCaller]
    exact decide_eq_true (show n + 3 ≤ n + 32 by omega)
  have runs : Ends enter (deepCaller n) (fun t _ => t = .code 0) fun _ _ => False := by
    refine ends_bind (ends_of_ok (peek_deepCaller n).1) ?_
    rintro _ _ ⟨rfl, rfl⟩
    refine ends_bind (ends_of_ok (peek_deepCaller n).2) ?_
    rintro _ _ ⟨rfl, rfl⟩
    refine ends_get_bind (ends_bind (ends_of_ok hclosure) ?_)
    rintro _ _ ⟨rfl, rfl⟩
    refine ends_bind (ends_of_ok hargc) ?_
    rintro _ _ ⟨rfl, rfl⟩
    refine ends_bind (ends_of_ok (show checkTarget (Closure.ofCode 0).target (deepCaller n)
      = .ok () (deepCaller n) from rfl)) ?_
    rintro _ _ ⟨-, rfl⟩
    refine ends_get_bind (ends_bind (ends_require hroom) fun _ _ he => ?_)
    subst he
    refine ends_get_bind (ends_bind (ends_of_ok hclone) ?_)
    rintro _ _ ⟨rfl, rfl⟩
    refine ends_bind (ends_of_ok hnone) ?_
    rintro _ _ ⟨-, rfl⟩
    refine ends_get_bind (ends_bind (ends_of_ok hbase) ?_)
    rintro _ _ ⟨rfl, rfl⟩
    refine ends_get_bind (ends_bind (ends_of_ok haddress) ?_)
    rintro _ _ ⟨rfl, rfl⟩
    refine ends_bind (ends_openFrame ?_ ?_) fun _ _ _ => ends_pure rfl
    · exact (frameLength_deepCaller n).ge
    · exact show (deepCaller n).stack.depth - 0 - 2 + 3 ≤ n + 32 by rw [depth_deepCaller]; omega
  obtain ⟨_, m', hs, rfl⟩ := runs.exists_ok
  exact ⟨m', hs⟩

/-- A floor in the upper half of the sixteen bits is saved as a negative number, and comes back. -/
theorem restores_floor_deepCaller : (deepCaller 40000).Sound ∧ (deepCaller 40000).stack.base = 40000
    ∧ ∃ m₁ m₂, enter (deepCaller 40000) = .ok (.code 0) m₁ ∧ leaveFrame none m₁ = .ok () m₂
      ∧ m₂.stack.base = 40000 := by
  have hroom : hasRoomFor (Int16.ofNat 40000) = true := by
    rw [hasRoomFor, callHeap_eq]
    decide +kernel
  obtain ⟨m₁, hcall⟩ := exists_enter_deepCaller hroom
  obtain ⟨argc, -, hcalled, returns⟩ := restores_floor_iff (sound_deepCaller 40000) hcall
  obtain ⟨m₂, hs, -, hiff, -⟩ := returns none hcalled
  exact ⟨sound_deepCaller 40000, rfl, m₁, m₂, hcall, hs, hiff.2 (by decide)⟩

/-- **A floor that is lost.** The settings are accepted, the floor is 65536, and after the return it
is zero. -/
theorem floor_wraps : (deepSettings 65536).refusal? = none ∧ (deepCaller 65536).Sound
    ∧ (deepCaller 65536).stack.capacity = (deepSettings 65536).stackSize
    ∧ (deepCaller 65536).stack.base = 65536
    ∧ ∃ m₁ m₂, enter (deepCaller 65536) = .ok (.code 0) m₁ ∧ leaveFrame none m₁ = .ok () m₂
      ∧ m₂.stack.base = 0 := by
  have hroom : hasRoomFor (Int16.ofNat 65536) = true := by
    rw [hasRoomFor, callHeap_eq]
    decide +kernel
  obtain ⟨m₁, hcall⟩ := exists_enter_deepCaller hroom
  obtain ⟨argc, record, base, address, m₀, en, rfl⟩ :=
    (entered_enter Heap.reliance_arbitrary (sound_deepCaller 65536).reliable).of_ok hcall
  obtain ⟨m₂, hs, back⟩ := en.calledBy.exists_leaveFrame none
  have hzero : m₂.stack.base = 65536 % 65536 := back.base
  exact ⟨by decide, sound_deepCaller 65536, rfl, rfl, _, m₂, hcall, hs, hzero⟩

end Machine

end SwarmVm
