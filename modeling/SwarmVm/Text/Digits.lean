/-!
# Numerals of fixed width

Addresses and masks are printed in a power-of-two base, padded on the left with zeros to a least
width.
-/

namespace SwarmVm

namespace Text

/-- `s` padded on the left with `c` to at least `width` characters. -/
def padLeft (width : Nat) (c : Char) (s : List Char) : List Char :=
  List.replicate (width - s.length) c ++ s

/-- The numeral of `n` in `base`, lower case, padded with zeros to at least `width` digits. -/
def numeral (base width n : Nat) : String :=
  String.ofList (padLeft width '0' (Nat.toDigits base n))

/-- The decimal numeral of `n`, padded with blanks to at least `width` characters. -/
def rightAligned (width n : Nat) : String :=
  String.ofList (padLeft width ' ' (Nat.toDigits 10 n))

/-- The decimal numeral of `n`. -/
def decimal (n : Nat) : String := numeral 10 0 n

/-- The decimal numeral of an integer, with a minus sign when it is negative. -/
def signedDecimal (i : Int) : String :=
  if i < 0 then "-" ++ decimal i.natAbs else decimal i.natAbs

/-- The hexadecimal numeral of `n`, at least `width` digits wide. -/
def hex (width n : Nat) : String := numeral 16 width n

/-- The binary numeral of `n`, at least `width` digits wide. -/
def binary (width n : Nat) : String := numeral 2 width n

end Text

end SwarmVm
