import SwarmVm.Image.Assembler
import SwarmVm.Image.Listing

/-!
# Assembled code is decoded as it was emitted

The assembler writes an instruction as an opcode byte and, for the opcodes that carry one, an
operand of two bytes. A label leaves the operand at zero and remembers where it is; when the label
is bound, the two bytes are overwritten in the middle of the code. Whoever decodes the code only
knows the opcodes and their widths.

The emitted instructions are kept beside the code, one line each, a line knowing whether its operand
is final, awaits a label or was bound. At any time the code is the bytes of the lines one after the
other, and a label points into the operand of its own line. So to overwrite the operand of a label
is to replace one line by another of the same width: no other line changes and none moves.

## Main definitions

* `Line` — an emitted instruction
* `Assembler.Emitted` — what can be emitted, line by line
* `Instruction.Decodes` — decoding from an offset, each instruction advancing by its width
* `Line.instructions` — the instructions of the lines with their offsets

## Main results

* `Line.Layout.bind` — binding a label replaces one line
* `Assembler.Emitted.layout` — the code is the bytes of the lines
* `Assembler.Emitted.decodes` — decoding gives back what was emitted
-/

namespace SwarmVm

theorem Opcode.ofByte?_byte (op : Opcode) : Opcode.ofByte? op.byte = some op := by
  cases op <;> rfl

namespace Instruction

variable {code : Array UInt8}

/-- Decoding from an offset on, each time advancing by the width of the opcode, gives these
instructions and stops at the last offset. -/
inductive Decodes (code : Array UInt8) : Nat → List Instruction → Nat → Prop
  | stop (n : Nat) : Decodes code n [] n
  | next {n m : Nat} {i : Instruction} {is : List Instruction} (hi : decode? code n = some i)
    (his : Decodes code (n + i.op.width) is m) : Decodes code n (i :: is) m

theorem lt_size_of_decode? {n : Nat} {i : Instruction} (hi : decode? code n = some i) :
    n < code.size := by
  rcases Nat.lt_or_ge n code.size with hn | hn
  · exact hn
  · rw [decode?, Array.getElem?_eq_none hn] at hi
    cases hi

/-- A listing cuts the code where it is decoded. -/
theorem Decodes.items {n : Nat} {is : List Instruction} (his : Decodes code n is code.size) :
    Listing.items code n = is.map .instruction := by
  generalize hm : code.size = m at his
  induction his with
  | stop n => rw [Listing.items, if_neg (by omega), List.map_nil]
  | next hi _ ih =>
    rw [Listing.items, if_pos (lt_size_of_decode? hi), Listing.itemAt, hi]
    exact congrArg _ (ih hm)

end Instruction

/-- The operand of an emitted instruction. -/
inductive Operand where
  /-- There is none. -/
  | bare
  /-- A word that is known when the instruction is emitted. -/
  | word (w : UInt16)
  /-- An address that is filled in when the label is bound. -/
  | label (l : Label) (target : Option Nat)
deriving DecidableEq, Repr

namespace Operand

/-- The word in the code. A label that is not bound yet reads zero. -/
def word? : Operand → Option UInt16
  | bare => none
  | word w => some w
  | label _ none => some 0
  | label _ (some n) => some (UInt16.ofNat n)

/-- The operand once its label is bound. -/
def bound (n : Nat) : Operand → Operand
  | label l _ => label l (some n)
  | operand => operand

theorem isSome_word?_bound (n : Nat) (o : Operand) : (o.bound n).word?.isSome = o.word?.isSome := by
  rcases o with _ | _ | ⟨_, _ | _⟩ <;> rfl

end Operand

/-- An emitted instruction. It has an operand exactly if its opcode carries one. -/
structure Line where
  /-- What it does. -/
  op : Opcode
  /-- Its operand. -/
  operand : Operand
  fits : operand.word?.isSome = op.hasOperand
deriving DecidableEq, Repr

namespace Line

variable {lines : List Line} {line : Line} {code : Array UInt8} {k : Nat}

/-- An instruction without an operand. -/
def bare (op : Opcode) (hop : op.hasOperand = false) : Line := ⟨op, .bare, hop.symm⟩

/-- An instruction with an operand. -/
def word (op : Opcode) (hop : op.hasOperand = true) (w : UInt16) : Line := ⟨op, .word w, hop.symm⟩

/-- An instruction whose operand is bound later. -/
def awaiting (op : Opcode) (hop : op.hasOperand = true) (l : Label) : Line :=
  ⟨op, .label l none, hop.symm⟩

/-- The line once its label is bound. -/
def bound (n : Nat) (line : Line) : Line :=
  ⟨line.op, line.operand.bound n, by rw [Operand.isSome_word?_bound, line.fits]⟩

/-- The bytes of a line. -/
def bytes (line : Line) : List UInt8 :=
  line.op.byte :: match line.operand.word? with
    | none => []
    | some w => [Word.low w, Word.high w]

/-- The number of bytes of some lines. -/
def extent : List Line → Nat
  | [] => 0
  | line :: lines => line.op.width + extent lines

/-- The instructions of some lines of which the first is at an offset. -/
def instructions : Nat → List Line → List Instruction
  | _, [] => []
  | n, line :: lines =>
    ⟨UInt16.ofNat n, line.op, line.operand.word?⟩ :: instructions (n + line.op.width) lines

theorem bytes_of_word? {w : UInt16} (hw : line.operand.word? = some w) :
    line.bytes = [line.op.byte, Word.low w, Word.high w] := by
  rw [bytes, hw]

theorem length_bytes (line : Line) : line.bytes.length = line.op.width := by
  rw [bytes, Opcode.width, ← line.fits]
  cases line.operand.word? <;> rfl

theorem length_flatMap_bytes (lines : List Line) :
    (lines.flatMap bytes).length = extent lines := by
  induction lines with
  | nil => rfl
  | cons line lines ih => rw [List.flatMap_cons, List.length_append, length_bytes, ih, extent]

@[simp] theorem extent_append (lines lines' : List Line) :
    extent (lines ++ lines') = extent lines + extent lines' := by
  induction lines with
  | nil => simp [extent]
  | cons line lines ih => rw [List.cons_append, extent, extent, ih, Nat.add_assoc]

theorem extent_take_le (lines : List Line) (k : Nat) : extent (lines.take k) ≤ extent lines := by
  have hsplit := extent_append (lines.take k) (lines.drop k)
  rw [List.take_append_drop] at hsplit
  omega

/-- Binding a label moves no line. -/
theorem extent_take_set (hline : lines[k]? = some line) (n j : Nat) :
    extent ((lines.set k (line.bound n)).take j) = extent (lines.take j) := by
  induction lines generalizing k j with
  | nil => rfl
  | cons first lines ih =>
    cases j with
    | zero => rfl
    | succ j =>
      cases k with
      | zero =>
        obtain rfl : first = line := Option.some.inj hline
        rfl
      | succ k => rw [List.set_cons_succ, List.take_succ_cons, List.take_succ_cons, extent, extent,
          ih hline]

theorem length_instructions (n : Nat) (lines : List Line) :
    (instructions n lines).length = lines.length := by
  induction lines generalizing n with
  | nil => rfl
  | cons line lines ih => simp [instructions, ih]

theorem getElem?_instructions (lines : List Line) (n k : Nat) :
    (instructions n lines)[k]? = lines[k]?.map fun line =>
      ⟨UInt16.ofNat (n + extent (lines.take k)), line.op, line.operand.word?⟩ := by
  induction lines generalizing n k with
  | nil => simp [instructions]
  | cons line lines ih =>
    cases k with
    | zero => simp [instructions, extent]
    | succ k => simp [instructions, ih, extent, Nat.add_assoc]

/-- The bytes of a line are decoded to the line, whatever stands around them. -/
theorem decode?_of_bytes {before after : List UInt8}
    (hcode : code.toList = before ++ line.bytes ++ after) :
    Instruction.decode? code before.length
      = some ⟨UInt16.ofNat before.length, line.op, line.operand.word?⟩ := by
  have hget (j : Nat) : code[before.length + j]? = (line.bytes ++ after)[j]? := by
    rw [← Array.getElem?_toList, hcode, List.append_assoc, List.getElem?_append_right (by omega),
      Nat.add_sub_cancel_left]
  have hop : code[before.length]? = some line.op.byte := by
    simpa [bytes] using hget 0
  rw [Instruction.decode?, hop, Option.bind_some, Opcode.ofByte?_byte]
  dsimp only
  cases hw : line.operand.word? with
  | none =>
    have hcarries : line.op.hasOperand = false := by rw [← line.fits, hw, Option.isSome_none]
    rw [hcarries, if_neg Bool.false_ne_true]
  | some w =>
    have hcarries : line.op.hasOperand = true := by rw [← line.fits, hw, Option.isSome_some]
    have hlow : code[before.length + 1]? = some (Word.low w) := by
      simpa [bytes_of_word? hw] using hget 1
    have hhigh : code[before.length + 1 + 1]? = some (Word.high w) := by
      simpa [bytes_of_word? hw] using hget 2
    rw [hcarries, if_pos rfl, Instruction.operandAt?, hlow, hhigh]
    simp

/-- Code that ends with the bytes of some lines is decoded to them. -/
theorem decodes_of_bytes (before : List UInt8)
    (hcode : code.toList = before ++ lines.flatMap bytes) :
    Instruction.Decodes code before.length (instructions before.length lines) code.size := by
  induction lines generalizing before with
  | nil =>
    have hsize : before.length = code.size := by simpa using (congrArg List.length hcode).symm
    rw [instructions, hsize]
    exact .stop _
  | cons line lines ih =>
    rw [List.flatMap_cons, ← List.append_assoc] at hcode
    have hrest := ih _ hcode
    rw [List.length_append, length_bytes] at hrest
    exact .next (decode?_of_bytes hcode) hrest

/-- The code is the bytes of the lines, a label points to the operand of its line, and a label was
bound to the start of a line or to the end of the code. -/
structure Layout (code : Array UInt8) (lines : List Line) : Prop where
  toList_eq : code.toList = lines.flatMap bytes
  label {k : Nat} {line : Line} {l : Label} {target : Option Nat} (hline : lines[k]? = some line)
    (hlabel : line.operand = .label l target) : l.operand = extent (lines.take k) + 1
  target {k n : Nat} {line : Line} {l : Label} (hline : lines[k]? = some line)
    (hlabel : line.operand = .label l (some n)) : ∃ j ≤ lines.length, n = extent (lines.take j)

namespace Layout

theorem size_eq (hl : Layout code lines) : code.size = extent lines := by
  rw [← length_flatMap_bytes, ← hl.toList_eq, Array.length_toList]

/-- Emitting an instruction adds a line, unless the instruction comes with a label that points
elsewhere or is bound already. -/
theorem emit (hl : Layout code lines) {code' : Array UInt8}
    (hcode : code'.toList = code.toList ++ line.bytes)
    (hlabel : ∀ l target, line.operand = .label l target →
      l.operand = code.size + 1 ∧ target = none) :
    Layout code' (lines ++ [line]) := by
  have hnew {k : Nat} {line' : Line} (hline : (lines ++ [line])[k]? = some line') :
      lines[k]? = some line' ∧ k ≤ lines.length ∨ line' = line ∧ k = lines.length := by
    rw [List.getElem?_append] at hline
    split at hline
    · exact .inl ⟨hline, by omega⟩
    · obtain ⟨hk, rfl⟩ := List.getElem?_eq_some_iff.1 hline
      simp only [List.length_singleton] at hk
      exact .inr ⟨by simp, by omega⟩
  constructor
  · rw [hcode, hl.toList_eq, List.flatMap_append, List.flatMap_singleton]
  · intro k line' l target hline hoperand
    rcases hnew hline with ⟨hline, hk⟩ | ⟨rfl, rfl⟩
    · rw [List.take_append_of_le_length hk]
      exact hl.label hline hoperand
    · rw [List.take_left, ← hl.size_eq]
      exact (hlabel l target hoperand).1
  · intro k n line' l hline hoperand
    rcases hnew hline with ⟨hline, -⟩ | ⟨rfl, rfl⟩
    · obtain ⟨j, hj, rfl⟩ := hl.target hline hoperand
      exact ⟨j, by simp; omega, by rw [List.take_append_of_le_length hj]⟩
    · cases (hlabel l (some n) hoperand).2

/-- To overwrite the operand of a line is to replace the line. -/
theorem set_bytes (hline : lines[k]? = some line) {w w' : UInt16} (hw : line.operand.word? = some w)
    {line' : Line} (hop : line'.op = line.op) (hw' : line'.operand.word? = some w') :
    ((lines.flatMap bytes).set (extent (lines.take k) + 1) (Word.low w')).set
      (extent (lines.take k) + 1 + 1) (Word.high w') = (lines.set k line').flatMap bytes := by
  obtain ⟨hk, rfl⟩ := List.getElem?_eq_some_iff.1 hline
  have hsplit : lines.flatMap bytes = (lines.take k).flatMap bytes
      ++ (lines[k].bytes ++ (lines.drop (k + 1)).flatMap bytes) := by
    rw [← List.flatMap_cons, ← List.flatMap_append, ← List.drop_eq_getElem_cons hk,
      List.take_append_drop]
  have hsplit' : (lines.set k line').flatMap bytes = (lines.take k).flatMap bytes
      ++ (line'.bytes ++ (lines.drop (k + 1)).flatMap bytes) := by
    rw [List.set_eq_take_append_cons_drop, if_pos hk, List.flatMap_append, List.flatMap_cons]
  rw [hsplit, hsplit', bytes_of_word? hw, bytes_of_word? hw', hop, ← length_flatMap_bytes]
  generalize (lines.take k).flatMap bytes = before
  rw [List.set_append_right _ _ (by omega), List.set_append_right _ _ (by omega),
    Nat.add_assoc before.length, Nat.add_sub_cancel_left, Nat.add_sub_cancel_left]
  rfl

/-- Binding a label replaces its line by one of the same width. -/
theorem bind (hl : Layout code lines) {l : Label} (hline : lines[k]? = some line)
    (hopen : line.operand = .label l none) :
    Layout ((code.setIfInBounds l.operand (Word.low (UInt16.ofNat code.size))).setIfInBounds
        (l.operand + 1) (Word.high (UInt16.ofNat code.size)))
      (lines.set k (line.bound code.size)) := by
  have hk : k < lines.length := (List.getElem?_eq_some_iff.1 hline).1
  have hnew {i : Nat} {line' : Line}
      (hline' : (lines.set k (line.bound code.size))[i]? = some line') :
      lines[i]? = some line' ∨ i = k ∧ line' = line.bound code.size := by
    rw [List.getElem?_set] at hline'
    split at hline'
    · next heq => exact .inr ⟨heq.symm, by simpa [heq ▸ hk] using hline'.symm⟩
    · exact .inl hline'
  have hbound : (line.bound code.size).operand = .label l (some code.size) := by
    simp only [bound, hopen, Operand.bound]
  constructor
  · rw [Array.toList_setIfInBounds, Array.toList_setIfInBounds, hl.toList_eq,
      hl.label hline hopen]
    exact set_bytes hline (by rw [hopen, Operand.word?]) rfl (by rw [hbound, Operand.word?])
  · intro i line' l' target hline' hoperand
    rw [extent_take_set hline]
    rcases hnew hline' with hline' | ⟨rfl, rfl⟩
    · exact hl.label hline' hoperand
    · cases hbound.symm.trans hoperand
      exact hl.label hline hopen
  · intro i n line' l' hline' hoperand
    simp only [List.length_set, extent_take_set hline]
    rcases hnew hline' with hline' | ⟨rfl, rfl⟩
    · exact hl.target hline' hoperand
    · cases hbound.symm.trans hoperand
      exact ⟨lines.length, Nat.le_refl _, by rw [List.take_length, hl.size_eq]⟩

end Layout

end Line

namespace Assembler

/-- What can be emitted, with one line for each instruction. The callbacks of `storeGlobal` and
`call` emit any lines and may bind earlier labels; a label is bound at most once. -/
inductive Emitted : Assembler → List Line → Prop
  | empty : Emitted {} []
  | string {a lines} (s : String) (ha : Emitted a lines) : Emitted (a.string s).2 lines
  | op {a lines} (op : Opcode) (hop : op.hasOperand = false) (ha : Emitted a lines) :
    Emitted (a.op op) (lines ++ [.bare op hop])
  | opArg {a lines} (op : Opcode) (hop : op.hasOperand = true) (w : UInt16)
    (ha : Emitted a lines) : Emitted (a.opArg op w) (lines ++ [.word op hop w])
  | nop {a lines} (ha : Emitted a lines) : Emitted a.nop (lines ++ [.bare .nop rfl])
  | done {a lines} (ha : Emitted a lines) : Emitted a.done (lines ++ [.bare .done rfl])
  | pushNil {a lines} (ha : Emitted a lines) : Emitted a.pushNil (lines ++ [.bare .pushNil rfl])
  | pushInt {a lines} (i : Int16) (ha : Emitted a lines) :
    Emitted (a.pushInt i) (lines ++ [.word .pushInt rfl i.toUInt16])
  | pushFloat {a lines} (x : Numeric.Single) (ha : Emitted a lines) :
    Emitted (a.pushFloat x) (lines ++ [.word .pushFloat rfl (Numeric.Half.narrow x).bits])
  | pushString {a lines} (s : String) (ha : Emitted a lines) :
    Emitted (a.pushString s) (lines ++ [.word .pushString rfl (a.string s).1])
  | pushHostClosure {a lines} (id : UInt16) (ha : Emitted a lines) :
    Emitted (a.pushHostClosure id) (lines ++ [.word .pushHost rfl id])
  | loadLocal {a lines} (i : UInt16) (ha : Emitted a lines) :
    Emitted (a.loadLocal i) (lines ++ [.word .loadLocal rfl i])
  | storeLocal {a lines} (i : UInt16) (ha : Emitted a lines) :
    Emitted (a.storeLocal i) (lines ++ [.word .storeLocal rfl i])
  | storeGlobal {a : Assembler} {lines} (name : String) (value : Assembler → Assembler)
    (hvalue : Emitted (value (a.pushString name)) lines) :
    Emitted (a.storeGlobal name value) (lines ++ [.bare .storeGlobal rfl])
  | loadGlobal {a lines} (name : String) (ha : Emitted a lines) :
    Emitted (a.loadGlobal name)
      (lines ++ [.word .pushString rfl (a.string name).1, .bare .loadGlobal rfl])
  | call {a : Assembler} {lines} (argc : Int16) (closure : Assembler → Assembler)
    (hclosure : Emitted (closure (a.pushInt argc)) lines) :
    Emitted (a.call argc closure) (lines ++ [.bare .call rfl])
  | forward {a lines} (op : Opcode) (hop : op.hasOperand = true) (ha : Emitted a lines) :
    Emitted (a.forward op).2 (lines ++ [.awaiting op hop (a.forward op).1])
  | bind {a lines} {k : Nat} {line : Line} {l : Label} (hline : lines[k]? = some line)
    (hopen : line.operand = .label l none) (ha : Emitted a lines) :
    Emitted (a.bind l).2 (lines.set k (line.bound a.code.size))

variable {a : Assembler} {lines : List Line}

theorem code_string (a : Assembler) (s : String) : (a.string s).2.code = a.code := by
  rw [string]
  split
  · rfl
  · split <;> rfl

theorem layout_op (hl : Line.Layout a.code lines) (op : Opcode) (hop : op.hasOperand = false) :
    Line.Layout (a.op op).code (lines ++ [.bare op hop]) :=
  hl.emit (by simp [Assembler.op, Line.bytes, Line.bare, Operand.word?]) (by simp [Line.bare])

theorem layout_opArg (hl : Line.Layout a.code lines) (op : Opcode) (hop : op.hasOperand = true)
    (w : UInt16) : Line.Layout (a.opArg op w).code (lines ++ [.word op hop w]) :=
  hl.emit (by simp [opArg, Line.bytes, Line.word, Operand.word?]) (by simp [Line.word])

theorem layout_pushString (hl : Line.Layout a.code lines) (s : String) :
    Line.Layout (a.pushString s).code (lines ++ [.word .pushString rfl (a.string s).1]) :=
  layout_opArg (a := (a.string s).2) (by rwa [code_string]) .pushString rfl _

theorem layout_forward (hl : Line.Layout a.code lines) (op : Opcode) (hop : op.hasOperand = true) :
    Line.Layout (a.forward op).2.code (lines ++ [.awaiting op hop (a.forward op).1]) := by
  refine hl.emit ?_ fun l target hlabel => ?_
  · simp [forward, opArg, Line.bytes, Line.awaiting, Operand.word?]
  · simp only [Line.awaiting, forward, Operand.label.injEq] at hlabel
    exact ⟨by rw [← hlabel.1], hlabel.2.symm⟩

/-- The code is the bytes of the lines at any time. -/
theorem Emitted.layout (he : Emitted a lines) : Line.Layout a.code lines := by
  induction he with
  | empty => exact ⟨rfl, by simp, by simp⟩
  | string s _ ih => rwa [code_string]
  | op op hop _ ih => exact layout_op ih op hop
  | opArg op hop w _ ih => exact layout_opArg ih op hop w
  | nop _ ih | done _ ih | pushNil _ ih => exact layout_op ih _ rfl
  | pushInt _ _ ih | pushFloat _ _ ih | pushHostClosure _ _ ih | loadLocal _ _ ih
  | storeLocal _ _ ih => exact layout_opArg ih _ rfl _
  | pushString s _ ih => exact layout_pushString ih s
  | storeGlobal _ _ _ ih | call _ _ _ ih => exact layout_op ih _ rfl
  | loadGlobal name _ ih =>
    rw [List.append_cons]
    exact layout_op (layout_pushString ih name) .loadGlobal rfl
  | forward op hop _ ih => exact layout_forward ih op hop
  | bind hline hopen _ ih => exact ih.bind hline hopen

/-- **Decoding.** Whatever was emitted, with less than 65536 bytes of code, is decoded from offset
zero to the emitted instructions in their order, each at the offset where its line starts and with
the operand of its line, and decoding stops at the end of the code; a listing shows nothing else.
The operand of a bound label is the offset at which it was bound, which is the start of a line or
the end of the code, and a label that is not bound reads zero. -/
theorem Emitted.decodes (he : Emitted a lines) (hsize : a.code.size < 65536) :
    Instruction.Decodes a.code 0 (Line.instructions 0 lines) a.code.size
    ∧ Listing.items a.code 0 = (Line.instructions 0 lines).map .instruction
    ∧ (Line.instructions 0 lines).length = lines.length
    ∧ ∀ k line, lines[k]? = some line →
      ∃ i, (Line.instructions 0 lines)[k]? = some i
        ∧ i.offset.toNat = Line.extent (lines.take k) ∧ i.op = line.op
        ∧ match line.operand with
          | .bare => i.operand = none
          | .word w => i.operand = some w
          | .label _ none => i.operand = some 0
          | .label _ (some n) => i.operand.map UInt16.toNat = some n
            ∧ ∃ j ≤ lines.length, n = Line.extent (lines.take j) := by
  have hl := he.layout
  have hdecodes : Instruction.Decodes a.code 0 (Line.instructions 0 lines) a.code.size :=
    Line.decodes_of_bytes [] hl.toList_eq
  have hword {j : Nat} : (UInt16.ofNat (Line.extent (lines.take j))).toNat
      = Line.extent (lines.take j) := by
    have hj := Line.extent_take_le lines j
    rw [← hl.size_eq] at hj
    exact UInt16.toNat_ofNat_of_lt (by rw [UInt16.size]; omega)
  refine ⟨hdecodes, hdecodes.items, ?_, fun k line hline => ?_⟩
  · rw [Line.length_instructions]
  · refine ⟨_, by rw [Line.getElem?_instructions, hline, Option.map_some], ?_, rfl, ?_⟩
    · rw [Nat.zero_add, hword]
    · rcases hoperand : line.operand with _ | w | ⟨l, _ | n⟩
      · rfl
      · rfl
      · rfl
      · obtain ⟨j, hj, rfl⟩ := hl.target hline hoperand
        exact ⟨by rw [Operand.word?, Option.map_some, hword], j, hj, rfl⟩

/-- A script with a jump over the setting of a global, and a jump that leads nowhere yet. -/
def detour : Assembler :=
  let (skip, a) := (pushInt {} 1).forward .jumpIfFalse
  let a := a.storeGlobal "tick" (·.pushInt 3)
  ((a.bind skip).2.forward .jump).2.done

theorem Emitted.decodes_detour :
    ∃ lines, Emitted detour lines ∧ detour.code.size = 17
      ∧ Instruction.Decodes detour.code 0
        [⟨0, .pushInt, some 1⟩, ⟨3, .jumpIfFalse, some 13⟩, ⟨6, .pushString, some 34⟩,
          ⟨9, .pushInt, some 3⟩, ⟨12, .storeGlobal, none⟩, ⟨13, .jump, some 0⟩,
          ⟨16, .done, none⟩] 17 := by
  have hsize : detour.code.size = 17 := by decide +kernel
  obtain ⟨lines, he, hlines⟩ : ∃ lines, Emitted detour lines ∧ Line.instructions 0 lines
      = [⟨0, .pushInt, some 1⟩, ⟨3, .jumpIfFalse, some 13⟩, ⟨6, .pushString, some 34⟩,
        ⟨9, .pushInt, some 3⟩, ⟨12, .storeGlobal, none⟩, ⟨13, .jump, some 0⟩,
        ⟨16, .done, none⟩] :=
    ⟨_, .done (.forward .jump rfl (.bind (k := 1) rfl rfl (.storeGlobal "tick" (·.pushInt 3)
      (.pushInt 3 (.pushString "tick" (.forward .jumpIfFalse rfl (.pushInt 1 .empty))))))),
      by decide +kernel⟩
  have hdecodes := (he.decodes (by rw [hsize]; decide)).1
  rw [hlines, hsize] at hdecodes
  exact ⟨lines, he, hsize, hdecodes⟩

end Assembler

end SwarmVm
