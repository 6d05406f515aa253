import Mathlib.Data.List.Basic
import SwarmVm.Image.Listing

/-!
# What a line of a listing names

A line of a listing begins with the place where it stands. Two blanks and one word follow: the
mnemonic of an instruction, or `.byte`. What comes behind the word is set off by a blank, and
neither the place nor the word has a blank in it, so that place and word can be told from the text.
The numerals are read back from their last digit, the zeros in front of them add nothing, and no two
operations have the same mnemonic.

A place is shown modulo the number of addresses when an instruction stands there, and in full when
it is a single byte.

## Main definitions

* `Text.hexValue` — what the characters of a hexadecimal numeral stand for
* `Listing.Item.place`, `Listing.Item.opcode?` — what a line names

## Main results

* `Text.hex_injective` — numerals of one width tell the numbers
* `Listing.Item.named_by_text` — lines with the same text name the same place and operation
* `Listing.stands_as_named` — the text of a line tells what stands in the code
-/

namespace SwarmVm

/-! ### Numerals -/

namespace Text

/-- What one hexadecimal digit stands for. -/
def digitValue (c : Char) : Nat := "0123456789abcdef".toList.idxOf c

/-- What the characters of a hexadecimal numeral stand for, the most significant digit first. -/
def hexValue (cs : List Char) : Nat := cs.foldl (fun n c => 16 * n + digitValue c) 0

theorem digitValue_digitChar : ∀ d < 16, digitValue d.digitChar = d := by decide

theorem blank_ne_digitChar : ∀ d < 16, ' ' ≠ d.digitChar := by decide

theorem hexValue_concat (cs : List Char) (c : Char) :
    hexValue (cs ++ [c]) = 16 * hexValue cs + digitValue c := by
  rw [hexValue, List.foldl_append]
  rfl

/-- A numeral read from its last digit. -/
theorem hexValue_toDigits (n : Nat) : hexValue (Nat.toDigits 16 n) = n := by
  induction n using Nat.strongRecOn with
  | ind n ih =>
    rcases Nat.lt_or_ge n 16 with hn | hn
    · rw [Nat.toDigits_of_lt_base hn, ← List.nil_append [_], hexValue_concat,
        digitValue_digitChar n hn, hexValue, List.foldl_nil, Nat.mul_zero, Nat.zero_add]
    · rw [Nat.toDigits_of_base_le (by decide) hn, hexValue_concat, ih (n / 16) (by omega),
        digitValue_digitChar _ (Nat.mod_lt n (by decide)), Nat.div_add_mod]

theorem blank_notMem_toDigits (n : Nat) : ' ' ∉ Nat.toDigits 16 n := by
  induction n using Nat.strongRecOn with
  | ind n ih =>
    rcases Nat.lt_or_ge n 16 with hn | hn
    · rw [Nat.toDigits_of_lt_base hn, List.mem_singleton]
      exact blank_ne_digitChar n hn
    · rw [Nat.toDigits_of_base_le (by decide) hn, List.mem_append, List.mem_singleton, not_or]
      exact ⟨ih (n / 16) (by omega), blank_ne_digitChar _ (Nat.mod_lt n (by decide))⟩

/-- Zeros in front of a numeral add nothing. -/
theorem hexValue_padLeft (width : Nat) (cs : List Char) :
    hexValue (padLeft width '0' cs) = hexValue cs := by
  rw [padLeft]
  induction width - cs.length with
  | zero => rfl
  | succ k ih =>
    rw [List.replicate_succ, List.cons_append, ← ih]
    rfl

theorem toList_hex (width n : Nat) :
    (hex width n).toList = padLeft width '0' (Nat.toDigits 16 n) := by
  rw [hex, numeral, String.toList_ofList]

theorem hexValue_hex (width n : Nat) : hexValue (hex width n).toList = n := by
  rw [toList_hex, hexValue_padLeft, hexValue_toDigits]

/-- Numerals of one width tell the numbers. -/
theorem hex_injective (width : Nat) : Function.Injective (hex width) := fun a b he => by
  rw [← hexValue_hex width a, he, hexValue_hex]

theorem blank_notMem_hex (width n : Nat) : ' ' ∉ (hex width n).toList := by
  rw [toList_hex, padLeft, List.mem_append, List.mem_replicate, not_or]
  exact ⟨fun h => absurd h.2 (by decide), blank_notMem_toDigits n⟩

/-- What stands before the first blank, and what behind it. -/
theorem eq_and_eq_of_blank {s s' t t' : List Char} (hs : ' ' ∉ s) (hs' : ' ' ∉ s')
    (he : s ++ ' ' :: t = s' ++ ' ' :: t') : s = s' ∧ t = t' := by
  induction s generalizing s' with
  | nil =>
    cases s' with
    | nil => exact ⟨rfl, (List.cons.inj he).2⟩
    | cons c s' => exact absurd (List.cons.inj he).1 fun hc => hs' (hc ▸ List.mem_cons_self)
  | cons c s ih =>
    cases s' with
    | nil => exact absurd (List.cons.inj he).1 fun hc => hs (hc ▸ List.mem_cons_self)
    | cons c' s' =>
      obtain ⟨rfl, htail⟩ := List.cons.inj he
      obtain ⟨rfl, rfl⟩ := ih (fun hc => hs (List.mem_cons_of_mem _ hc))
        (fun hc => hs' (List.mem_cons_of_mem _ hc)) htail
      exact ⟨rfl, rfl⟩

end Text

/-! ### Lines -/

namespace Opcode

theorem find?_mnemonic (op : Opcode) : all.find? (·.mnemonic == op.mnemonic) = some op := by
  cases op <;> decide +kernel

/-- No two operations have the same name. -/
theorem mnemonic_injective : Function.Injective mnemonic := fun op op' he => by
  have hop := find?_mnemonic op
  rw [he, find?_mnemonic op'] at hop
  exact (Option.some.inj hop).symm

theorem blank_notMem_mnemonic (op : Opcode) : ' ' ∉ op.mnemonic.toList := by
  cases op <;> simp [mnemonic]

end Opcode

/-- An instruction is at the address where it was decoded. -/
theorem Instruction.offset_of_decode? {code : Array UInt8} {k : Nat} {i : Instruction}
    (hi : decode? code k = some i) : i.offset = UInt16.ofNat k := by
  rw [decode?] at hi
  split at hi
  · cases hi
  · split at hi
    · obtain ⟨w, -, rfl⟩ := Option.map_eq_some_iff.1 hi
      rfl
    · cases hi
      rfl

namespace Listing

variable {names names' : NameTable} {code code' : Array UInt8} {n n' : Nat}

/-- The place that a line shows. -/
def Item.place : Item → Nat
  | instruction i => i.offset.toNat
  | byte offset _ => offset

/-- The operation that a line shows, if it is a whole instruction. -/
def Item.opcode? : Item → Option Opcode
  | instruction i => some i.op
  | byte .. => none

/-- The word behind the place. -/
def word : Option Opcode → String
  | some op => op.mnemonic
  | none => ".byte"

theorem blank_notMem_word (o : Option Opcode) : ' ' ∉ (word o).toList := by
  cases o with
  | none => decide
  | some op => exact op.blank_notMem_mnemonic

/-- The word `.byte` is no mnemonic. -/
theorem word_injective : Function.Injective word := by
  have hbyte : ∀ op : Opcode, op.mnemonic ≠ ".byte" := by
    intro op
    cases op <;> decide
  intro o o' he
  cases o with
  | none =>
    cases o' with
    | none => rfl
    | some op' => exact absurd he.symm (hbyte op')
  | some op =>
    cases o' with
    | none => exact absurd he (hbyte op)
    | some op' => rw [Opcode.mnemonic_injective he]

theorem exists_operandText_eq (names : NameTable) (op : Opcode) (w : UInt16) :
    ∃ t, operandText names op w = " " ++ t := by
  cases op with
  | pushString =>
    rw [operandText]
    cases names.get? w with
    | none => exact ⟨_, by simp only [String.append_assoc]; rfl⟩
    | some s => exact ⟨_, by simp only [String.append_assoc]; rfl⟩
  | _ => exact ⟨_, rfl⟩

/-- The text of a line is its place, two blanks, its word, and then nothing or what follows a
blank. -/
theorem Item.exists_text_eq (names : NameTable) (item : Item) : ∃ rest,
    item.text names = Text.hex 4 item.place ++ "  " ++ word item.opcode? ++ rest
      ∧ (rest = "" ∨ ∃ t, rest = " " ++ t) := by
  cases item with
  | instruction i =>
    refine ⟨_, rfl, ?_⟩
    cases i.operand with
    | none => exact .inl rfl
    | some w => exact .inr (exists_operandText_eq names i.op w)
  | byte offset b =>
    have hword : "  .byte 0x" = "  " ++ ".byte" ++ (" " ++ "0x") := by decide
    refine ⟨" " ++ ("0x" ++ Text.hex 2 b.toNat), ?_, .inr ⟨_, rfl⟩⟩
    rw [text, hword]
    simp only [place, opcode?, word, String.append_assoc]

/-- With a blank behind it, so that the word always ends before one. -/
theorem Item.exists_toList_eq (names : NameTable) (item : Item) : ∃ cs,
    (item.text names).toList ++ [' '] = (Text.hex 4 item.place).toList
      ++ ' ' :: ' ' :: ((word item.opcode?).toList ++ ' ' :: cs) := by
  obtain ⟨rest, htext, rfl | ⟨t, rfl⟩⟩ := item.exists_text_eq names
  · exact ⟨[], by simp [htext]⟩
  · exact ⟨t.toList ++ [' '], by simp [htext]⟩

/-- **A line names its place and its operation.** Lines with the same text, of whatever listings,
show the same place, and they are instructions with the same operation or both single bytes. -/
theorem Item.named_by_text {item item' : Item} (he : item.text names = item'.text names') :
    item.place = item'.place ∧ item.opcode? = item'.opcode? := by
  obtain ⟨cs, htext⟩ := item.exists_toList_eq names
  obtain ⟨cs', htext'⟩ := item'.exists_toList_eq names'
  rw [he, htext'] at htext
  obtain ⟨hplace, hbehind⟩ := Text.eq_and_eq_of_blank (Text.blank_notMem_hex 4 _)
    (Text.blank_notMem_hex 4 _) htext
  obtain ⟨hword, -⟩ := Text.eq_and_eq_of_blank (blank_notMem_word _) (blank_notMem_word _)
    (List.cons.inj hbehind).2
  exact ⟨(Text.hex_injective 4 (String.toList_inj.1 hplace)).symm,
    (word_injective (String.toList_inj.1 hword)).symm⟩

theorem place_itemAt (hn : n < 65536) : (itemAt code n).place = n := by
  rw [itemAt]
  split
  · next i hi =>
    rw [Item.place, Instruction.offset_of_decode? hi]
    exact UInt16.toNat_ofNat_of_lt hn
  · rfl

theorem opcode?_itemAt (code : Array UInt8) (n : Nat) :
    (itemAt code n).opcode? = (Instruction.decode? code n).map Instruction.op := by
  rw [itemAt]
  split <;> next hi => rw [hi]; rfl

/-- **The text of a line tells what stands in the code.** As long as there are no more places than
addresses, lines with the same text stand at the same place, and there the same operation is decoded
or none; if none is, the byte is the same. -/
theorem stands_as_named (hn : n < 65536) (hn' : n' < 65536)
    (he : (itemAt code n).text names = (itemAt code' n').text names') :
    n = n'
      ∧ (Instruction.decode? code n).map Instruction.op
        = (Instruction.decode? code' n').map Instruction.op
      ∧ (Instruction.decode? code n = none → code.getD n 0 = code'.getD n' 0) := by
  obtain ⟨hplace, hop⟩ := Item.named_by_text he
  rw [place_itemAt hn, place_itemAt hn'] at hplace
  subst hplace
  rw [opcode?_itemAt, opcode?_itemAt] at hop
  refine ⟨rfl, hop, fun hnone => ?_⟩
  have hnone' : Instruction.decode? code' n = none := by
    rwa [hnone, Option.map_none, eq_comm, Option.map_eq_none_iff] at hop
  -- the lines are equal up to the number of the byte
  rw [itemAt, hnone, itemAt, hnone', Item.text, Item.text] at he
  have hbyte := Text.hex_injective 2 (String.append_right_inj _ |>.1 he)
  exact UInt8.toNat_inj.1 hbyte

end Listing

end SwarmVm
