import SwarmVm.Image.Assembler
import SwarmVm.Proofs.Image.Grammar

/-!
# Assembled images are loaded as they were assembled

The assembler hands out the number of a string when it is asked for it, long before the image is
written; a machine that loads the image counts the strings anew. Both count the builtin names first
and then the strings in the order in which they came up, and the assembler only ever adds at the
end. So the place of a string never changes once it has one, and the number that was handed out is
still right in the table of the machine.

A number is a word, so there is room for 65536 strings; the builtin names take 34 of them. A
finished image has all the shape it needs to be read back if its strings are free of zero
characters and there are not too many of them for the count.

## Main definitions

* `Assembler.Assembled` — what can be assembled, with the numbers that were handed out
* `Assembler.known` — all strings in the order of their numbers

## Main results

* `Assembler.findIdx?_known_string` — the number of a string is its place
* `Assembler.Assembled.place` — and remains so
* `Image.complete_toBytes` — an image opens with its strings
* `Image.parse_and_assemble` — reading, and reading what was assembled
-/

namespace SwarmVm

namespace NameTable

theorem get?_eq (t : NameTable) (id : UInt16) : t.get? id = t.toList[id.toNat]? := by
  rw [get?, toList, List.getElem?_append, Builtin.total]
  split <;> simp

end NameTable

namespace Assembler

/-- What can be assembled, with the strings that were asked for and the numbers they were given. All
other instructions are emitted through these. -/
inductive Assembled : Assembler → List (String × UInt16) → Prop
  | empty : Assembled {} []
  | string {a asked} (s : String) (ha : Assembled a asked) :
    Assembled (a.string s).2 ((s, (a.string s).1) :: asked)
  | op {a asked} (op : Opcode) (ha : Assembled a asked) : Assembled (a.op op) asked
  | opArg {a asked} (op : Opcode) (operand : UInt16) (ha : Assembled a asked) :
    Assembled (a.opArg op operand) asked
  | forward {a asked} (op : Opcode) (ha : Assembled a asked) : Assembled (a.forward op).2 asked
  | bind {a asked} (l : Label) (ha : Assembled a asked) : Assembled (a.bind l).2 asked

variable {a : Assembler} {asked : List (String × UInt16)}

/-- All strings that have a number, in the order of their numbers. -/
def known (a : Assembler) : List String := Builtin.texts ++ a.strings.toList

theorem findIdx?_strings (s : String) :
    a.strings.findIdx? (· == s) = a.strings.toList.findIdx? (· == s) := by
  rw [← List.findIdx?_toArray, Array.toArray_toList]

/-- The assembler adds strings at the end only. -/
theorem known_isPrefix_string (a : Assembler) (s : String) : a.known <+: (a.string s).2.known := by
  rw [string]
  split
  · exact List.prefix_rfl
  · split
    · exact List.prefix_rfl
    · exact ⟨[s], by simp [known]⟩

/-- The number of a string is its place among the strings that are known. -/
theorem findIdx?_known_string (a : Assembler) (s : String) :
    ∃ i, (a.string s).2.known.findIdx? (· == s) = some i ∧ (a.string s).1 = UInt16.ofNat i := by
  rw [string]
  split
  · next i hbuiltin => exact ⟨i, by rw [known, List.findIdx?_append, hbuiltin, Option.some_or], rfl⟩
  · next hbuiltin =>
    split
    · next i hstring =>
      rw [findIdx?_strings] at hstring
      refine ⟨Builtin.total + i, ?_, rfl⟩
      rw [known, List.findIdx?_append, hbuiltin, hstring, Option.none_or, Option.map_some,
        Builtin.total, Nat.add_comm]
    · next hstring =>
      rw [findIdx?_strings] at hstring
      refine ⟨Builtin.total + a.strings.size, ?_, rfl⟩
      simp [known, List.findIdx?_append, hbuiltin, hstring, Builtin.total, Nat.add_comm]

/-- A number that was handed out remains the place of its string. -/
theorem Assembled.place (ha : Assembled a asked) {s : String} {id : UInt16}
    (hasked : (s, id) ∈ asked) :
    ∃ i, a.known.findIdx? (· == s) = some i ∧ id = UInt16.ofNat i := by
  induction ha with
  | empty => cases hasked
  | @string a asked s' _ ih =>
    rcases List.mem_cons.1 hasked with heq | hasked
    · obtain ⟨rfl, rfl⟩ := Prod.mk.injEq .. ▸ heq
      exact findIdx?_known_string a s
    · obtain ⟨i, hi, hid⟩ := ih hasked
      exact ⟨i, (known_isPrefix_string a s').findIdx?_eq_some hi, hid⟩
  | op _ _ ih | opArg _ _ _ ih | forward _ _ ih | bind _ _ ih => exact ih hasked

/-- A table that has loaded the strings has the string at its number and finds it there. -/
theorem Assembled.load (ha : Assembled a asked) (hroom : a.strings.size ≤ 65502) {s : String}
    {id : UInt16} (hasked : (s, id) ∈ asked) (t : NameTable) :
    (t.load a.image.strings).get? id = some s ∧ (t.load a.image.strings).find? s = some id := by
  obtain ⟨i, hi, rfl⟩ := ha.place hasked
  have htable : (t.load a.image.strings).toList = a.known := rfl
  obtain ⟨hlt, heq, -⟩ := List.findIdx?_eq_some_iff_getElem.1 hi
  have hlength : a.known.length = 34 + a.strings.size := by simp [known, Builtin.texts]; omega
  have hid : (UInt16.ofNat i).toNat = i := UInt16.toNat_ofNat_of_lt (by simp [UInt16.size]; omega)
  constructor
  · rw [NameTable.get?_eq, htable, hid, List.getElem?_eq_getElem hlt, eq_of_beq heq]
  · rw [NameTable.find?, htable, hi, Option.map_some]

end Assembler

namespace Image

/-- A written image has all the strings of the image, and the code behind them. -/
theorem complete_toBytes {image : Image} (hclean : ∀ s ∈ image.strings, '\x00' ∉ s.toList)
    (hcount : image.strings.length < 65536) : Complete image.toBytes image := by
  have hword : (UInt16.ofNat image.strings.length).toNat = image.strings.length :=
    UInt16.toNat_ofNat_of_lt hcount
  refine ⟨UInt16.ofNat image.strings.length, ⟨?_, hclean⟩, hword.symm⟩
  have hhigh : image.strings.length / 256 % 256 = image.strings.length / 256 := by omega
  simp [toBytes, headerBytes, Word.low, Word.high, hword, hhigh]

open Assembler in
/-- **Images.** A byte string is read as an image exactly if it is a count and that many strings,
all of them text without zero characters, with any code behind them; what is read is these strings
in their order, and the code, whose offset is the number of bytes before it. Otherwise the first
thing that is wrong decides: the bytes are truncated if the count or the string that is due is cut
off, and hold an invalid string if it is not text. And whatever was assembled, from strings without
zero characters of which at most 65502 are not builtin names, is read back from its bytes; a table
that loads its strings has under each number that was handed out the string it was handed out for,
and finds the string under this number. -/
theorem parse_and_assemble :
    (∀ bytes : List UInt8,
      (∀ image, parse bytes = .ok image ↔ Complete bytes image)
      ∧ (∀ image, parse bytes = .ok image →
        image.codeStart = 2 + (image.strings.flatMap stringBytes).length
        ∧ bytes.drop image.codeStart = image.code.toList)
      ∧ (parse bytes = .error .truncated ↔ CutOff bytes)
      ∧ (parse bytes = .error .invalidString ↔ Garbled bytes)
      ∧ ∀ e, parse bytes = .error e → e = .truncated ∨ e = .invalidString)
    ∧ ∀ a asked, Assembled a asked → (∀ s ∈ a.strings, '\x00' ∉ s.toList) →
      a.strings.size ≤ 65502 →
      parse a.image.toBytes = .ok ⟨a.strings.toList, a.code⟩
      ∧ ∀ (t : NameTable) (s : String) (id : UInt16), (s, id) ∈ asked →
        (t.load a.image.strings).get? id = some s ∧ (t.load a.image.strings).find? s = some id := by
  refine ⟨fun bytes => ⟨fun image => parse_eq_ok_iff, fun image hp => ?_, parse_eq_truncated_iff,
    parse_eq_invalidString_iff, fun e hp => ?_⟩, fun a asked ha hclean hroom => ⟨?_, ?_⟩⟩
  · obtain ⟨count, ho, -⟩ := parse_eq_ok_iff.1 hp
    exact ho.codeStart_eq
  · rcases parse_cases bytes with ⟨image, -, hp'⟩ | ⟨-, hp'⟩ | ⟨-, hp'⟩
    · simp [hp'] at hp
    · exact .inl (by simpa [hp'] using hp.symm)
    · exact .inr (by simpa [hp'] using hp.symm)
  · have hcount : a.image.strings.length < 65536 := by
      simp [Assembler.image]
      omega
    exact parse_of_complete (complete_toBytes (by simpa [Assembler.image] using hclean) hcount)
  · intro t s id hasked
    exact ha.load hroom hasked t

/-- A script that skips a greeting. -/
def greeting : Assembler :=
  let (skip, a) := (Assembler.storeGlobal {} "tick" (·.pushInt 3)).forward .jump
  let a := ((a.pushString "grüße").call 1 (·.loadGlobal "log")).op .pop
  ((a.bind skip).2.loadGlobal "tick").done

open Assembler in
theorem parse_and_assemble_greeting :
    Assembled greeting [("tick", 34), ("log", 4), ("grüße", 35), ("tick", 34)]
    ∧ greeting.strings = #["tick", "grüße"]
    ∧ parse greeting.image.toBytes = .ok ⟨["tick", "grüße"], greeting.code⟩
    ∧ (NameTable.load {} greeting.image.strings).get? 35 = some "grüße"
    ∧ (NameTable.load {} greeting.image.strings).find? "log" = some 4 := by
  obtain ⟨asked, ha, rfl⟩ : ∃ asked, Assembled greeting asked
      ∧ asked = [("tick", 34), ("log", 4), ("grüße", 35), ("tick", 34)] :=
    ⟨_, .op _ (.op _ (.opArg _ _ (.string "tick" (.bind _ (.op _ (.op _ (.op _ (.opArg _ _
      (.string "log" (.opArg _ _ (.opArg _ _ (.string "grüße" (.forward _ (.op _ (.opArg _ _
        (.opArg _ _ (.string "tick" .empty))))))))))))))))), by decide +kernel⟩
  have hstrings : greeting.strings = #["tick", "grüße"] := by decide +kernel
  have hclean : ∀ s ∈ greeting.strings, '\x00' ∉ s.toList := by
    rw [hstrings]
    decide +kernel
  obtain ⟨hparse, hload⟩ :=
    parse_and_assemble.2 greeting _ ha hclean (by rw [hstrings]; decide)
  rw [hstrings] at hparse
  exact ⟨ha, hstrings, hparse, (hload {} "grüße" 35 (by simp)).1, (hload {} "log" 4 (by simp)).2⟩

end Image

end SwarmVm
