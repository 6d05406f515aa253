/-!
# Binary floating-point formats

A format is a number of exponent bits and a number of fraction bits. A pattern of such a format,
its sign bit apart, is read as a magnitude: a not-a-number, an infinity, or `significand * 2 ^
exponent`. In the other direction a magnitude is rounded to the nearest pattern, a half to the
even one.

The rounding works on exact integers. A magnitude is given as an integer significand, a power of
two, and a flag saying that the true value lies strictly above the significand but below its
successor; that is all a quotient needs.

## Main definitions

* `Format` — the two widths, with `half` and `single` for the formats in use
* `Magnitude`, `Format.read` — what the bits below the sign say
* `Format.round` — the nearest pattern to an exact magnitude
-/

namespace SwarmVm

namespace Numeric

/-- A binary interchange format: the widths of its exponent and fraction fields. -/
structure Format where
  /-- Bits of the exponent field. -/
  exponentBits : Nat
  /-- Bits of the fraction field. -/
  fractionBits : Nat
deriving DecidableEq, Repr

namespace Format

/-- Sixteen bits: five of exponent, ten of fraction. -/
def half : Format := ⟨5, 10⟩

/-- Thirty-two bits: eight of exponent, twenty-three of fraction. -/
def single : Format := ⟨8, 23⟩

/-- One step of the exponent field, as a pattern. -/
def unit (f : Format) : Nat := Nat.pow 2 f.fractionBits

/-- The exponent field of infinities and not-a-numbers. -/
def topExponent (f : Format) : Nat := Nat.pow 2 f.exponentBits - 1

/-- The pattern of infinity. -/
def infinity (f : Format) : Nat := f.topExponent * f.unit

/-- The pattern of the sign bit. -/
def signBit (f : Format) : Nat := Nat.pow 2 (f.exponentBits + f.fractionBits)

/-- The fraction bit that tells quiet not-a-numbers. -/
def quietBit (f : Format) : Nat := Nat.pow 2 (f.fractionBits - 1)

/-- The power of two that the last fraction bit of the smallest numbers stands for. -/
def leastExponent (f : Format) : Int :=
  2 - (Nat.pow 2 (f.exponentBits - 1) : Nat) - (f.fractionBits : Int)

end Format

/-- What a pattern says once its sign is set apart. -/
inductive Magnitude where
  /-- Not a number; the fraction field is its payload. -/
  | nan (payload : Nat)
  /-- Infinity. -/
  | infinite
  /-- The number `significand * 2 ^ exponent`. -/
  | finite (significand : Nat) (exponent : Int)
deriving DecidableEq, Repr

namespace Format

/-- The magnitude of a pattern without its sign bit. -/
def read (f : Format) (pattern : Nat) : Magnitude :=
  let field := pattern / f.unit
  let fraction := pattern % f.unit
  if field = f.topExponent then
    if fraction = 0 then .infinite else .nan fraction
  else if field = 0 then .finite fraction f.leastExponent
  else .finite (fraction + f.unit) (f.leastExponent + field - 1)

/-- `significand / 2 ^ shift` rounded to the nearest integer, a half to the even one. With
`inexact` the dividend is a little more than `significand`, by less than one. -/
def shiftRounding (significand shift : Nat) (inexact : Bool) : Nat :=
  let whole := Nat.pow 2 shift
  let quotient := significand / whole
  let twice := 2 * (significand % whole)
  if whole < twice then quotient + 1
  else if twice = whole then
    if inexact || quotient % 2 = 1 then quotient + 1 else quotient
  else quotient

/-- The exponent in which a magnitude of `f` near `significand * 2 ^ exponent` is counted: the
one that leaves as many significant bits as the format holds, but no less than the least. -/
def countingExponent (f : Format) (significand : Nat) (exponent : Int) : Int :=
  max (exponent + Nat.log2 significand - f.fractionBits) f.leastExponent

/-- The pattern of `f` nearest to `significand * 2 ^ exponent`, without a sign. A carry out of the
fraction raises the exponent field by itself, and what is too large becomes infinity. -/
def round (f : Format) (significand : Nat) (exponent : Int) (inexact : Bool) : Nat :=
  if significand = 0 then 0
  else
    let counting := f.countingExponent significand exponent
    let counted :=
      if counting ≤ exponent then significand * Nat.pow 2 (exponent - counting).toNat
      else shiftRounding significand (counting - exponent).toNat inexact
    min (counted + (counting - f.leastExponent).toNat * f.unit) f.infinity

end Format

end Numeric

end SwarmVm
