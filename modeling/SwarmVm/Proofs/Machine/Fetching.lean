import Mathlib.Order.Monotone.Basic
import SwarmVm.Image.Listing
import SwarmVm.Machine.Boot
import SwarmVm.Proofs.Image.Grammar
import SwarmVm.Proofs.Image.Lines
import SwarmVm.Proofs.Outcome

/-!
# The machine and the listing read the same code

An instruction is read in two places. The machine asks first whether the program counter is in the
code, then for the opcode, then whether the operand is in the code as well, and each question has its
own fault. A listing takes the bytes that are there and shows a single byte when they make up no
whole instruction. Besides, the machine counts its addresses from where the code begins in the
image, so that its bounds are bounds on the whole image.

All three readings give the same instructions. A listing that goes through the code in this way cuts
it into lines that lie one behind the other, whatever the bytes are.

## Main definitions

* `Image.instructionAt` — an instruction read from the bytes of the whole image
* `Listing.startOf` — where a line begins
* `Listing.Partitions` — lines that lie one behind the other and fill the code

## Main results

* `Machine.fetch_eq` — what the machine reads, and which fault it raises when there is nothing
* `Machine.fetch_eq_instructionAt` — the same from the whole image
* `Listing.partitions_items` — the lines of a listing fill the code
* `Listing.Partitions.exists_text_eq` — a line names where it begins and what is decoded there
* `Machine.reads_as_listed` — all of it, for an image that is attached
-/

namespace SwarmVm

/-! ### Instructions -/

namespace Instruction

variable {code : Array UInt8} {k : Nat} {b : UInt8} {op : Opcode}

theorem decode?_of_le (hk : code.size ≤ k) : decode? code k = none := by
  rw [decode?, Array.getElem?_eq_none hk]
  rfl

theorem decode?_of_ofByte? (hb : code[k]? = some b) (hop : Opcode.ofByte? b = none) :
    decode? code k = none := by
  rw [decode?, hb, Option.bind_some, hop]

theorem decode?_of_bare (hb : code[k]? = some b) (hop : Opcode.ofByte? b = some op)
    (hbare : op.hasOperand = false) : decode? code k = some ⟨UInt16.ofNat k, op, none⟩ := by
  rw [decode?, hb, Option.bind_some, hop]
  simp [hbare]

theorem decode?_of_hasOperand (hb : code[k]? = some b) (hop : Opcode.ofByte? b = some op)
    (hoperand : op.hasOperand = true) : decode? code k
      = (operandAt? code (k + 1)).map fun w => ⟨UInt16.ofNat k, op, some w⟩ := by
  rw [decode?, hb, Option.bind_some, hop]
  simp [hoperand]

theorem operandAt?_of_lt (hk : k + 1 < code.size) :
    operandAt? code k = some (Word.ofBytes (code.getD k 0) (code.getD (k + 1) 0)) := by
  have hlow : k < code.size := by omega
  rw [operandAt?, Array.getElem?_eq_getElem hlow, Array.getElem?_eq_getElem hk]
  simp [hlow, hk]

theorem operandAt?_of_le (hk : code.size ≤ k + 1) : operandAt? code k = none := by
  rw [operandAt?, Array.getElem?_eq_none hk]
  split <;> simp_all

/-- A whole instruction ends within the code. -/
theorem width_le_of_decode? {i : Instruction} (hi : decode? code k = some i) :
    k + i.op.width ≤ code.size := by
  rcases Nat.lt_or_ge k code.size with hk | hk
  · have hb := Array.getElem?_eq_getElem hk
    cases hop : Opcode.ofByte? code[k] with
    | none =>
      rw [decode?_of_ofByte? hb hop] at hi
      cases hi
    | some op =>
      cases hoperand : op.hasOperand with
      | false =>
        rw [decode?_of_bare hb hop hoperand] at hi
        cases hi
        simpa [Opcode.width, hoperand] using Nat.succ_le_of_lt hk
      | true =>
        rw [decode?_of_hasOperand hb hop hoperand] at hi
        rcases Nat.lt_or_ge (k + 1 + 1) code.size with hk' | hk'
        · rw [operandAt?_of_lt hk'] at hi
          cases hi
          simp only [Opcode.width, hoperand, if_true]
          omega
        · rw [operandAt?_of_le hk'] at hi
          cases hi
  · rw [decode?_of_le hk] at hi
    cases hi

end Instruction

/-! ### The machine -/

/-- The instruction at an address of the code that begins at an offset of the bytes of an image. All
bounds are those of the whole image. -/
def Image.instructionAt (bytes : List UInt8) (start pc : Nat) :
    Except Fault (Opcode × Option UInt16) :=
  let size := bytes.length - start
  if size ≤ pc then .error .programCounter
  else
    match bytes[start + pc]? with
    | none => .error .programCounter
    | some b =>
      match Opcode.ofByte? b with
      | none => .error .instruction
      | some op =>
        if op.hasOperand then
          if size < pc + op.width then .error .programCounter
          else
            match bytes[start + pc + 1]?, bytes[start + pc + 2]? with
            | some low, some high => .ok (op, some (Word.ofBytes low high))
            | _, _ => .error .programCounter
        else .ok (op, none)

namespace Machine

variable {F : Type} {m : Machine F} {bytes : List UInt8}

/-- The machine reads what is decoded. When there is no whole instruction, a byte in the code that is
no opcode is one fault, and everything else the other. -/
theorem fetch_eq (m : Machine F) : m.fetch
    = match Instruction.decode? m.code m.pc.toNat with
      | some i => .ok (i.op, i.operand)
      | none =>
        if m.code[m.pc.toNat]?.map Opcode.ofByte? = some none then .error .instruction
        else .error .programCounter := by
  rw [fetch]
  rcases Nat.lt_or_ge m.pc.toNat m.code.size with hpc | hpc
  · have hb := Array.getElem?_eq_getElem hpc
    have hbyte : m.code.getD m.pc.toNat 0 = m.code[m.pc.toNat] := by simp [hpc]
    simp only [Nat.not_le.2 hpc, if_false, hbyte]
    cases hop : Opcode.ofByte? m.code[m.pc.toNat] with
    | none => simp [Instruction.decode?_of_ofByte? hb hop, hb, hop]
    | some op =>
      cases hoperand : op.hasOperand with
      | false => simp [Instruction.decode?_of_bare hb hop hoperand, hoperand]
      | true =>
        rw [Instruction.decode?_of_hasOperand hb hop hoperand]
        have hwidth : op.width = 3 := by rw [Opcode.width, hoperand, if_pos rfl]
        rcases Nat.lt_or_ge (m.pc.toNat + 1 + 1) m.code.size with hend | hend
        · rw [Instruction.operandAt?_of_lt hend]
          simp [hoperand, hwidth, show ¬ m.code.size < m.pc.toNat + 3 by omega]
        · rw [Instruction.operandAt?_of_le hend]
          simp [hoperand, hwidth, hb, hop, show m.code.size < m.pc.toNat + 3 by omega]
  · simp [Instruction.decode?_of_le hpc, hpc]

/-- Only two faults say that there is no instruction. -/
theorem fault_of_fetch {e : Fault} (he : m.fetch = .error e) :
    e = .instruction ∨ e = .programCounter := by
  rw [fetch_eq] at he
  split at he
  · cases he
  · split at he
    · exact .inl (Except.error.inj he).symm
    · exact .inr (Except.error.inj he).symm

theorem fetch_eq_ok_iff {op : Opcode} {operand : Option UInt16} : m.fetch = .ok (op, operand)
    ↔ Instruction.decode? m.code m.pc.toNat = some ⟨m.pc, op, operand⟩ := by
  rw [fetch_eq]
  cases hi : Instruction.decode? m.code m.pc.toNat with
  | none =>
    dsimp only
    split <;> simp
  | some i =>
    have hoffset : i.offset = m.pc :=
      (Instruction.offset_of_decode? hi).trans UInt16.ofNat_toNat
    obtain ⟨offset, op', operand'⟩ := i
    subst hoffset
    simp

theorem fetch_eq_instruction_iff : m.fetch = .error .instruction
    ↔ ∃ b, m.code[m.pc.toNat]? = some b ∧ Opcode.ofByte? b = none := by
  rw [fetch_eq, ← Option.map_eq_some_iff]
  cases hi : Instruction.decode? m.code m.pc.toNat with
  | none =>
    dsimp only
    split <;> simp_all
  | some i =>
    simp only [reduceCtorEq, false_iff]
    intro hb
    obtain ⟨b, hb, hop⟩ := Option.map_eq_some_iff.1 hb
    rw [Instruction.decode?_of_ofByte? hb hop] at hi
    cases hi

/-- It is the same to read from the whole image. -/
theorem fetch_eq_instructionAt {start : Nat} (hcode : bytes.drop start = m.code.toList) :
    m.fetch = Image.instructionAt bytes start m.pc.toNat := by
  have hsize : bytes.length - start = m.code.size := by
    rw [← List.length_drop, hcode, Array.length_toList]
  have hget : ∀ k, bytes[start + k]? = m.code[k]? := by
    intro k
    rw [← List.getElem?_drop, hcode, Array.getElem?_toList]
  rw [fetch, Image.instructionAt, hsize]
  rcases Nat.lt_or_ge m.pc.toNat m.code.size with hpc | hpc
  · simp only [Nat.not_le.2 hpc, if_false, Nat.add_assoc, hget, Array.getElem?_eq_getElem hpc,
      Array.getD_eq_getD_getElem?, Option.getD_some]
    cases hop : Opcode.ofByte? m.code[m.pc.toNat] with
    | none => rfl
    | some op =>
      cases hoperand : op.hasOperand with
      | false => simp [hoperand]
      | true =>
        have hwidth : op.width = 3 := by rw [Opcode.width, hoperand, if_pos rfl]
        rcases Nat.lt_or_ge m.code.size (m.pc.toNat + 3) with hend | hend
        · simp [hoperand, hwidth, hend]
        · rw [Array.getElem?_eq_getElem (by omega : m.pc.toNat + 1 < m.code.size),
            Array.getElem?_eq_getElem (by omega : m.pc.toNat + 2 < m.code.size)]
          simp [hoperand, hwidth, Nat.not_lt.2 hend]
  · simp [hpc]

theorem code_attach (image : Image) (m : Machine F) :
    (stateAfter (attach image) m).code = image.code := rfl

end Machine

/-! ### The listing -/

namespace Listing

variable {code : Array UInt8} {n : Nat}

/-- The number of bytes before a line, when the first one begins with the code. -/
def startOf : List Item → Nat → Nat
  | [], _ => 0
  | _ :: _, 0 => 0
  | item :: lines, k + 1 => item.width + startOf lines k

/-- The lines lie one behind the other, from the beginning of the code to its end. -/
structure Partitions (code : Array UInt8) (lines : List Item) : Prop where
  /-- A line is what stands at its offset. -/
  line : ∀ k item, lines[k]? = some item → item = itemAt code (startOf lines k)
  /-- The last line ends with the code. -/
  total : startOf lines lines.length = code.size
  /-- Every byte belongs to exactly one line. -/
  covers : ∀ n < code.size, ∃! k, k < lines.length ∧ startOf lines k ≤ n ∧ n < startOf lines (k + 1)

@[simp] theorem startOf_zero (lines : List Item) : startOf lines 0 = 0 := by
  cases lines <;> rfl

@[simp] theorem startOf_cons_succ (item : Item) (lines : List Item) (k : Nat) :
    startOf (item :: lines) (k + 1) = item.width + startOf lines k := rfl

theorem startOf_mono (lines : List Item) : Monotone (startOf lines) := by
  induction lines with
  | nil => exact fun _ _ _ => le_rfl
  | cons item lines ih =>
    refine monotone_nat_of_le_succ fun k => ?_
    cases k with
    | zero => simp
    | succ k => simpa using ih (Nat.le_succ k)

/-- A byte before the end of the last line belongs to exactly one line. -/
theorem existsUnique_line (lines : List Item) {n : Nat} (hn : n < startOf lines lines.length) :
    ∃! k, k < lines.length ∧ startOf lines k ≤ n ∧ n < startOf lines (k + 1) := by
  have hexists : ∃ k, k < lines.length ∧ startOf lines k ≤ n ∧ n < startOf lines (k + 1) := by
    induction lines generalizing n with
    | nil => exact absurd hn (Nat.not_lt_zero n)
    | cons item lines ih =>
      rcases Nat.lt_or_ge n item.width with hfirst | hlater
      · exact ⟨0, Nat.succ_pos _, Nat.zero_le n, by simpa using hfirst⟩
      · rw [List.length_cons, startOf_cons_succ] at hn
        obtain ⟨k, hk, hle, hlt⟩ := ih (n := n - item.width) (by omega)
        refine ⟨k + 1, Nat.succ_lt_succ hk, ?_, ?_⟩ <;> rw [startOf_cons_succ] <;> omega
  obtain ⟨k, hk, hle, hlt⟩ := hexists
  refine ⟨k, ⟨hk, hle, hlt⟩, fun j ⟨_, hle', hlt'⟩ => ?_⟩
  -- of two lines the later one does not begin before the earlier one has ended
  rcases Nat.lt_trichotomy j k with hjk | rfl | hkj
  · have := startOf_mono lines (show j + 1 ≤ k from hjk)
    omega
  · rfl
  · have := startOf_mono lines (show k + 1 ≤ j from hkj)
    omega

theorem width_itemAt_le (hn : n < code.size) : n + (itemAt code n).width ≤ code.size := by
  rw [itemAt]
  split
  · next i hi => exact Instruction.width_le_of_decode? hi
  · exact hn

/-- The lines from an offset on fill the code behind it. -/
theorem startOf_items (hn : n ≤ code.size) :
    n + startOf (items code n) (items code n).length = code.size := by
  fun_induction items code n with
  | case1 n hlt item ih =>
    have := ih (width_itemAt_le hlt)
    rw [List.length_cons, startOf_cons_succ]
    omega
  | case2 n hge =>
    rw [List.length_nil, startOf_zero]
    omega

theorem getElem?_items (code : Array UInt8) (n : Nat) : ∀ k item,
    (items code n)[k]? = some item → item = itemAt code (n + startOf (items code n) k) := by
  fun_induction items code n with
  | case1 n hlt first ih =>
    intro k item hk
    cases k with
    | zero =>
      rw [List.getElem?_cons_zero] at hk
      exact (Option.some.inj hk).symm
    | succ k =>
      rw [List.getElem?_cons_succ] at hk
      rw [ih k item hk, startOf_cons_succ, Nat.add_assoc]
  | case2 n hge =>
    intro k item hk
    cases hk

theorem partitions_items (code : Array UInt8) : Partitions code (items code 0) := by
  have htotal : startOf (items code 0) (items code 0).length = code.size := by
    rw [← startOf_items (Nat.zero_le code.size), Nat.zero_add]
  refine ⟨fun k item hk => ?_, htotal, fun n hn => existsUnique_line _ (htotal ▸ hn)⟩
  rw [getElem?_items code 0 k item hk, Nat.zero_add]

/-- A line names where it begins and what is decoded there, as far as there are addresses. -/
theorem Partitions.exists_text_eq {lines : List Item} (fills : Partitions code lines)
    (names : NameTable) {k : Nat} {item : Item} (hk : lines[k]? = some item)
    (hlt : startOf lines k < 65536) : ∃ rest,
      item.text names = Text.hex 4 (startOf lines k) ++ "  "
          ++ word ((Instruction.decode? code (startOf lines k)).map Instruction.op) ++ rest
        ∧ (rest = "" ∨ ∃ t, rest = " " ++ t) := by
  have htext := item.exists_text_eq names
  rwa [fills.line k item hk, place_itemAt hlt, opcode?_itemAt, ← fills.line k item hk] at htext

end Listing

namespace Machine

variable {F : Type} {image : Image} {bytes : List UInt8}

/-- **The machine and the listing read the same code.** Once an image is attached, whatever the
program counter is, the machine fetches an instruction exactly if it is decoded at this address of
the code; it faults with a bad instruction exactly if the address is in the code and the byte there
is no opcode, and otherwise with a bad address. A listing of the image has lines for its strings and
then lines that fill the code without gap or overlap. -/
theorem reads_as_listed (hparse : Image.parse bytes = .ok image) :
    bytes.drop image.codeStart = image.code.toList
      ∧ (∀ m : Machine F, (stateAfter (attach image) m).code = image.code)
      ∧ (∀ m : Machine F, m.code = image.code →
        m.fetch = Image.instructionAt bytes image.codeStart m.pc.toNat
          ∧ (∀ op operand, m.fetch = .ok (op, operand)
            ↔ Instruction.decode? image.code m.pc.toNat = some ⟨m.pc, op, operand⟩)
          ∧ (m.fetch = .error .instruction
            ↔ ∃ b, image.code[m.pc.toNat]? = some b ∧ Opcode.ofByte? b = none)
          ∧ ∀ e, m.fetch = .error e → e = .instruction ∨ e = .programCounter)
      ∧ ∃ lines, Listing.Partitions image.code lines ∧ Listing.render image
        = String.join ((image.strings.mapIdx (fun i s => Listing.stringLine s i)
          ++ lines.map (Listing.Item.text ⟨image.strings.toArray⟩)).map (· ++ "\n")) := by
  obtain ⟨count, hopens, -⟩ := Image.parse_eq_ok_iff.1 hparse
  obtain ⟨-, hcode⟩ := hopens.codeStart_eq
  refine ⟨hcode, code_attach image, fun m hm => ?_, Listing.items image.code 0,
    Listing.partitions_items image.code, rfl⟩
  rw [← hm] at hcode ⊢
  exact ⟨fetch_eq_instructionAt hcode, fun _ _ => fetch_eq_ok_iff, fetch_eq_instruction_iff,
    fun _ => fault_of_fetch⟩

/-- Code that ends within an operand: a `nop`, a byte that is no opcode, and a `pushi` of which the
operand lacks a byte. -/
theorem reads_as_listed_cut_off :
    Image.parse [0, 0, 0, 200, 35, 7] = .ok ⟨[], #[0, 200, 35, 7]⟩
      ∧ ∀ m : Machine Unit, m.code = #[0, 200, 35, 7] → ∀ op operand,
        m.fetch = .ok (op, operand)
          ↔ Instruction.decode? #[0, 200, 35, 7] m.pc.toNat = some ⟨m.pc, op, operand⟩ := by
  have hparse : Image.parse [0, 0, 0, 200, 35, 7] = .ok ⟨[], #[0, 200, 35, 7]⟩ := rfl
  obtain ⟨-, -, hfetch, -⟩ := reads_as_listed (F := Unit) hparse
  exact ⟨hparse, fun m hm => (hfetch m hm).2.1⟩

end Machine

end SwarmVm
