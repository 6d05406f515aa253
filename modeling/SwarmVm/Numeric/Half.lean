import SwarmVm.Numeric.Single

/-!
# Half-precision numbers

Scripts hold their fractions in sixteen bits. Nothing is computed in that form: a `Half` is
widened to a `Single`, which loses nothing, and a result is narrowed back, to the nearest half
with ties to even.

## Main definitions

* `Half.widen`, `Half.narrow` — the two conversions
* `Half.compare?`, `Half.isZero` — order and zero test, taken on the widened numbers
-/

namespace SwarmVm

namespace Numeric

/-- A half-precision number, as its bits. -/
structure Half where
  /-- The pattern. -/
  bits : UInt16
deriving DecidableEq, Repr

namespace Half

/-- The sign bit and the bits below it, put together. -/
def ofParts (negative : Bool) (pattern : Nat) : Half :=
  ⟨UInt16.ofNat (pattern + if negative then Format.half.signBit else 0)⟩

/-- The sign bit is set. -/
def isNegative (x : Half) : Bool := decide (Format.half.signBit ≤ x.bits.toNat)

/-- The bits below the sign. -/
def pattern (x : Half) : Nat := x.bits.toNat % Format.half.signBit

/-- The number apart from its sign. -/
def magnitude (x : Half) : Magnitude := Format.half.read x.pattern

/-- `x` is not a number. -/
def isNan (x : Half) : Bool := decide (Format.half.infinity < x.pattern)

/-- Fraction bits by which the two formats differ. -/
def fractionShift : Nat := Format.single.fractionBits - Format.half.fractionBits

/-- The same number in single precision. A not-a-number becomes quiet and keeps its sign and
payload. -/
def widen (x : Half) : Single :=
  match x.magnitude with
  | .nan payload =>
    .ofParts x.isNegative (Format.single.infinity + (payload * Nat.pow 2 fractionShift |||
      Format.single.quietBit))
  | .infinite => .infinity x.isNegative
  | .finite significand exponent => .round x.isNegative significand exponent false

/-- The nearest half. A not-a-number becomes quiet and keeps its sign and the upper part of its
payload. -/
def narrow (x : Single) : Half :=
  match x.magnitude with
  | .nan payload =>
    .ofParts x.isNegative (Format.half.infinity + (payload / Nat.pow 2 fractionShift |||
      Format.half.quietBit))
  | .infinite => .ofParts x.isNegative Format.half.infinity
  | .finite significand exponent =>
    .ofParts x.isNegative (Format.half.round significand exponent false)

/-- Positive zero. -/
def zero : Half := ⟨0⟩

/-- Either zero. -/
def isZero (x : Half) : Bool := x.widen.isZero

/-- The numeric order, `none` when one of the two is not a number. -/
def compare? (x y : Half) : Option Ordering := x.widen.compare? y.widen

end Half

end Numeric

end SwarmVm
