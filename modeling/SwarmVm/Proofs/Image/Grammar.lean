import Mathlib.Data.List.Basic
import SwarmVm.Image.Header
import SwarmVm.Word

/-!
# The grammar of images

An image opens with a count and that many strings. The reader goes through the bytes once, looking
for the zero behind each string and then at the bytes before it; here the same bytes are described
without going through them. The bytes of an image open with some strings, each of them text without
a zero character (`Image.Opens`), and three things can come then: the code, if these are all the
strings; bytes without a zero, so that the next string is cut off; or a string that is not text.
Every byte string has one of these shapes, and each shape has its own answer.

What makes the description unambiguous is that a zero byte in UTF-8 is a zero character and never a
part of another one.

## Main definitions

* `Image.IsText` — bytes that are some characters in UTF-8
* `Image.Opens` — the strings that an image opens with
* `Image.Complete`, `Image.CutOff`, `Image.Garbled` — the three shapes

## Main results

* `Image.zero_mem_text_iff` — where zero bytes come from
* `Image.takeStrings_append` — strings that are there are taken
* `Image.parse_cases` — every byte string has one of the shapes
* `Image.parse_eq_ok_iff`, `Image.parse_eq_truncated_iff`, `Image.parse_eq_invalidString_iff` — the
  answer for each shape
-/

namespace SwarmVm

namespace Image

variable {bytes raw rest : List UInt8} {strings : List String} {count : UInt16} {image : Image}

/-! ### Text -/

/-- The bytes are some characters in UTF-8. -/
def IsText (bytes : List UInt8) : Prop := ∃ cs : List Char, bytes = cs.flatMap String.utf8EncodeChar

theorem toList_toUTF8 (s : String) :
    s.toUTF8.data.toList = s.toList.flatMap String.utf8EncodeChar := by
  rw [String.toUTF8_eq_toByteArray, ← String.utf8Encode_toList, List.utf8Encode,
    List.data_toByteArray]

theorem zero_mem_utf8EncodeChar_iff (c : Char) : 0 ∈ String.utf8EncodeChar c ↔ c = '\x00' := by
  have hzero : c = '\x00' ↔ c.val.toNat = 0 := by
    rw [Char.ext_iff, ← UInt32.toNat_inj]
    rfl
  have hbyte : ∀ n, (0 : UInt8) = UInt8.ofNat n ↔ n % 256 = 0 := by
    intro n
    rw [← UInt8.toNat_inj, UInt8.toNat_ofNat']
    exact eq_comm
  -- all bytes of a longer character have their high bit set
  simp only [String.utf8EncodeChar, hzero]
  split_ifs <;> simp only [List.mem_cons, List.not_mem_nil, or_false, hbyte] <;> omega

/-- A zero byte is a zero character, never a part of another character. -/
theorem zero_mem_text_iff (s : String) : 0 ∈ s.toUTF8.data.toList ↔ '\x00' ∈ s.toList := by
  simp only [toList_toUTF8, List.mem_flatMap, zero_mem_utf8EncodeChar_iff, exists_eq_right]

theorem decodeText?_toUTF8 (s : String) : decodeText? s.toUTF8.data.toList = some s := by
  have hvalid : (ByteArray.mk s.toUTF8.data.toList.toArray).IsValidUTF8 := s.isValidUTF8
  rw [decodeText?, String.fromUTF8?, dif_pos hvalid, Option.some.injEq, ← String.toByteArray_inj]
  rfl

theorem decodeText?_of_not_isText (hraw : ¬ IsText raw) : decodeText? raw = none := by
  rw [decodeText?, String.fromUTF8?, dif_neg]
  rintro ⟨cs, hcs⟩
  refine hraw ⟨cs, ?_⟩
  have hdata := congrArg ByteArray.data hcs
  rw [List.utf8Encode, List.data_toByteArray] at hdata
  exact List.toArray_inj hdata

theorem exists_string_of_isText (hraw : IsText raw) : ∃ s : String, raw = s.toUTF8.data.toList := by
  obtain ⟨cs, rfl⟩ := hraw
  exact ⟨String.ofList cs, by rw [toList_toUTF8, String.toList_ofList]⟩

/-! ### Strings -/

theorem splitZero_append (hraw : 0 ∉ raw) : splitZero (raw ++ 0 :: rest) = some (raw, rest) := by
  induction raw with
  | nil => rfl
  | cons b raw ih =>
    obtain ⟨hb, hraw⟩ : 0 ≠ b ∧ 0 ∉ raw := by simpa using hraw
    rw [List.cons_append, splitZero, if_neg (Ne.symm hb), ih hraw, Option.map_some]

theorem splitZero_of_notMem (hrest : 0 ∉ rest) : splitZero rest = none := by
  induction rest with
  | nil => rfl
  | cons b rest ih =>
    obtain ⟨hb, hrest⟩ : 0 ≠ b ∧ 0 ∉ rest := by simpa using hrest
    rw [splitZero, if_neg (Ne.symm hb), ih hrest, Option.map_none]

/-- Strings that are there are taken, and the rest is up to the bytes behind them. -/
theorem takeStrings_append (hclean : ∀ s ∈ strings, '\x00' ∉ s.toList) (n : Nat) :
    takeStrings (strings.length + n) (strings.flatMap stringBytes ++ rest)
      = (takeStrings n rest).map fun (more, code) => (strings ++ more, code) := by
  induction strings with
  | nil => cases h : takeStrings n rest <;> simp [h, Except.map]
  | cons s strings ih =>
    obtain ⟨hs, hclean⟩ := List.forall_mem_cons.1 hclean
    have hraw : 0 ∉ s.toUTF8.data.toList := mt (zero_mem_text_iff s).1 hs
    have hbytes : (s :: strings).flatMap stringBytes ++ rest
        = s.toUTF8.data.toList ++ 0 :: (strings.flatMap stringBytes ++ rest) := by
      simp [stringBytes]
    rw [hbytes, List.length_cons, Nat.succ_add, takeStrings, splitZero_append hraw]
    simp only [decodeText?_toUTF8, ih hclean]
    cases takeStrings n rest <;> rfl

/-- Up to `n` strings are at the front of any bytes. If there are fewer, either no zero follows, or
bytes that are not text. -/
theorem exists_strings (n : Nat) (bytes : List UInt8) :
    ∃ (strings : List String) (rest : List UInt8), bytes = strings.flatMap stringBytes ++ rest
      ∧ (∀ s ∈ strings, '\x00' ∉ s.toList)
      ∧ (strings.length = n ∨ strings.length < n
        ∧ (0 ∉ rest ∨ ∃ raw tail, rest = raw ++ 0 :: tail ∧ 0 ∉ raw ∧ ¬ IsText raw)) := by
  induction n generalizing bytes with
  | zero => exact ⟨[], bytes, rfl, by simp, .inl rfl⟩
  | succ n ih =>
    by_cases hzero : 0 ∈ bytes
    · obtain ⟨raw, tail, rfl, hraw⟩ := List.eq_append_cons_of_mem hzero
      by_cases htext : IsText raw
      · obtain ⟨s, rfl⟩ := exists_string_of_isText htext
        obtain ⟨strings, rest, rfl, hclean, hend⟩ := ih tail
        refine ⟨s :: strings, rest, by simp [stringBytes], ?_, ?_⟩
        · exact List.forall_mem_cons.2 ⟨mt (zero_mem_text_iff s).2 hraw, hclean⟩
        · exact hend.imp (congrArg (· + 1)) fun h => ⟨Nat.succ_lt_succ h.1, h.2⟩
      · exact ⟨[], _, rfl, by simp, .inr ⟨n.succ_pos, .inr ⟨raw, tail, rfl, hraw, htext⟩⟩⟩
    · exact ⟨[], bytes, rfl, by simp, .inr ⟨n.succ_pos, .inl hzero⟩⟩

/-! ### Images -/

/-- The bytes of an image open with a count and these strings, each of which ends at the first zero
behind it; the bytes `rest` follow. -/
structure Opens (bytes : List UInt8) (count : UInt16) (strings : List String)
    (rest : List UInt8) : Prop where
  /-- The count comes first, its low byte before its high byte. -/
  bytes_eq : bytes = Word.low count :: Word.high count :: (strings.flatMap stringBytes ++ rest)
  /-- No string holds a zero character. -/
  clean : ∀ s ∈ strings, '\x00' ∉ s.toList

/-- All the strings are there, and the code follows. -/
def Complete (bytes : List UInt8) (image : Image) : Prop :=
  ∃ count, Opens bytes count image.strings image.code.toList
    ∧ image.strings.length = count.toNat

/-- The count is cut off, or the string that is due next is. -/
def CutOff (bytes : List UInt8) : Prop :=
  bytes.length < 2 ∨ ∃ count strings rest, Opens bytes count strings rest
    ∧ strings.length < count.toNat ∧ 0 ∉ rest

/-- The string that is due next is not text. -/
def Garbled (bytes : List UInt8) : Prop :=
  ∃ count strings raw rest, Opens bytes count strings (raw ++ 0 :: rest)
    ∧ strings.length < count.toNat ∧ 0 ∉ raw ∧ ¬ IsText raw

theorem Opens.parse_eq (ho : Opens bytes count strings rest) {n : Nat}
    (hn : strings.length + n = count.toNat) :
    parse bytes = (takeStrings n rest).map fun (more, code) => ⟨strings ++ more, code.toArray⟩ := by
  have hcount := Word.toNat_ofBytes (Word.low count) (Word.high count)
  rw [Word.ofBytes_low_high] at hcount
  rw [ho.bytes_eq, parse, ← hcount, ← hn, takeStrings_append ho.clean]
  cases takeStrings n rest <;> rfl

theorem Opens.parse_of_length_eq (ho : Opens bytes count strings rest)
    (hlength : strings.length = count.toNat) : parse bytes = .ok ⟨strings, rest.toArray⟩ := by
  rw [ho.parse_eq (n := 0) hlength]
  simp [takeStrings, Except.map]

theorem Opens.parse_of_notMem (ho : Opens bytes count strings rest)
    (hlength : strings.length < count.toNat) (hrest : 0 ∉ rest) :
    parse bytes = .error .truncated := by
  obtain ⟨n, hn⟩ := Nat.exists_eq_add_of_lt hlength
  rw [ho.parse_eq (n := n + 1) (by omega), takeStrings, splitZero_of_notMem hrest]
  rfl

theorem Opens.parse_of_not_isText (ho : Opens bytes count strings (raw ++ 0 :: rest))
    (hlength : strings.length < count.toNat) (hraw : 0 ∉ raw) (htext : ¬ IsText raw) :
    parse bytes = .error .invalidString := by
  obtain ⟨n, hn⟩ := Nat.exists_eq_add_of_lt hlength
  rw [ho.parse_eq (n := n + 1) (by omega), takeStrings, splitZero_append hraw]
  simp [decodeText?_of_not_isText htext, Except.map]

/-- Every byte string has one of the three shapes, and the reader tells which. -/
theorem parse_cases (bytes : List UInt8) :
    (∃ image, Complete bytes image ∧ parse bytes = .ok image)
    ∨ (CutOff bytes ∧ parse bytes = .error .truncated)
    ∨ (Garbled bytes ∧ parse bytes = .error .invalidString) := by
  match bytes with
  | [] | [_] => exact .inr (.inl ⟨.inl (by simp), rfl⟩)
  | low :: high :: body =>
    obtain ⟨strings, rest, rfl, hclean, hend⟩ :=
      exists_strings (Word.ofBytes low high).toNat body
    have ho : Opens (low :: high :: (strings.flatMap stringBytes ++ rest)) (Word.ofBytes low high)
        strings rest := ⟨by simp, hclean⟩
    rcases hend with hlength | ⟨hlength, hrest | ⟨raw, tail, rfl, hraw, htext⟩⟩
    · exact .inl ⟨⟨strings, rest.toArray⟩, ⟨_, ho, hlength⟩, ho.parse_of_length_eq hlength⟩
    · exact .inr (.inl ⟨.inr ⟨_, _, _, ho, hlength, hrest⟩, ho.parse_of_notMem hlength hrest⟩)
    · exact .inr (.inr ⟨⟨_, _, _, _, ho, hlength, hraw, htext⟩,
        ho.parse_of_not_isText hlength hraw htext⟩)

theorem parse_of_complete (hc : Complete bytes image) : parse bytes = .ok image := by
  obtain ⟨count, ho, hlength⟩ := hc
  exact ho.parse_of_length_eq hlength

theorem parse_of_cutOff (hc : CutOff bytes) : parse bytes = .error .truncated := by
  rcases hc with hshort | ⟨count, strings, rest, ho, hlength, hrest⟩
  · match bytes with
    | [] | [_] => rfl
  · exact ho.parse_of_notMem hlength hrest

theorem parse_of_garbled (hg : Garbled bytes) : parse bytes = .error .invalidString := by
  obtain ⟨count, strings, raw, rest, ho, hlength, hraw, htext⟩ := hg
  exact ho.parse_of_not_isText hlength hraw htext

theorem parse_eq_ok_iff : parse bytes = .ok image ↔ Complete bytes image := by
  refine ⟨fun hp => ?_, parse_of_complete⟩
  rcases parse_cases bytes with ⟨image', hc, hp'⟩ | ⟨-, hp'⟩ | ⟨-, hp'⟩
  · obtain rfl : image' = image := by simpa [hp'] using hp
    exact hc
  · simp [hp'] at hp
  · simp [hp'] at hp

theorem parse_eq_truncated_iff : parse bytes = .error .truncated ↔ CutOff bytes := by
  refine ⟨fun hp => ?_, parse_of_cutOff⟩
  rcases parse_cases bytes with ⟨image', -, hp'⟩ | ⟨hc, -⟩ | ⟨-, hp'⟩
  · simp [hp'] at hp
  · exact hc
  · simp [hp'] at hp

theorem parse_eq_invalidString_iff : parse bytes = .error .invalidString ↔ Garbled bytes := by
  refine ⟨fun hp => ?_, parse_of_garbled⟩
  rcases parse_cases bytes with ⟨image', -, hp'⟩ | ⟨-, hp'⟩ | ⟨hg, -⟩
  · simp [hp'] at hp
  · simp [hp'] at hp
  · exact hg

/-- The code starts behind the strings. -/
theorem Opens.codeStart_eq (ho : Opens bytes count image.strings image.code.toList) :
    image.codeStart = 2 + (image.strings.flatMap stringBytes).length
    ∧ bytes.drop image.codeStart = image.code.toList := by
  have hstart : image.codeStart = 2 + (image.strings.flatMap stringBytes).length := by
    rw [codeStart, headerBytes, List.length_append, List.length_cons, List.length_singleton]
  refine ⟨hstart, ?_⟩
  rw [hstart, ho.bytes_eq, Nat.add_comm, List.drop_succ_cons, List.drop_succ_cons, List.drop_left]

end Image

end SwarmVm
