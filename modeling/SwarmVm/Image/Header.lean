import SwarmVm.Fault

/-!
# Images

An image is a count of strings, the strings, and the code. The count is a word, low byte first;
each string is text in UTF-8 that ends with a zero byte; the code is all that follows.

## Main definitions

* `Image` — the strings and the code
* `Image.parse` — an image read from its bytes
* `Image.toBytes` — and written back
-/

namespace SwarmVm

/-- A script as it is delivered to a robot. -/
structure Image where
  /-- The strings, numbered after the builtin names. -/
  strings : List String
  /-- The instructions. -/
  code : Array UInt8
deriving DecidableEq, Repr

namespace Image

/-- The bytes up to the first zero, and those behind it. -/
def splitZero : List UInt8 → Option (List UInt8 × List UInt8)
  | [] => none
  | b :: rest =>
    if b = 0 then some ([], rest) else (splitZero rest).map fun (s, tail) => (b :: s, tail)

/-- The text with the given bytes. -/
def decodeText? (bytes : List UInt8) : Option String := String.fromUTF8? ⟨bytes.toArray⟩

/-- Read `n` strings from the front of a byte string. -/
def takeStrings : Nat → List UInt8 → Except ImageError (List String × List UInt8)
  | 0, bytes => .ok ([], bytes)
  | n + 1, bytes =>
    match splitZero bytes with
    | none => .error .truncated
    | some (raw, rest) =>
      match decodeText? raw with
      | none => .error .invalidString
      | some s => (takeStrings n rest).map fun (strings, code) => (s :: strings, code)

/-- Read an image. -/
def parse : List UInt8 → Except ImageError Image
  | low :: high :: rest =>
    (takeStrings (low.toNat + 256 * high.toNat) rest).map fun (strings, code) =>
      ⟨strings, code.toArray⟩
  | _ => .error .truncated

/-- The bytes of a string, ended by a zero. -/
def stringBytes (s : String) : List UInt8 := s.toUTF8.data.toList ++ [0]

/-- The bytes before the code. -/
def headerBytes (image : Image) : List UInt8 :=
  let count := image.strings.length
  [UInt8.ofNat (count % 256), UInt8.ofNat (count / 256 % 256)]
    ++ image.strings.flatMap stringBytes

/-- The bytes of an image. -/
def toBytes (image : Image) : List UInt8 := image.headerBytes ++ image.code.toList

/-- The offset of the code in the bytes of an image. -/
def codeStart (image : Image) : Nat := image.headerBytes.length

end Image

end SwarmVm
