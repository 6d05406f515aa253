import SwarmVm.Numeric.Format

/-!
# Single-precision numbers

`Single` is a thirty-two bit pattern. The arithmetic is exact integer arithmetic followed by one
rounding, so that every bit of a result, those of a not-a-number included, follows from the
definitions here. Raising to a power is the one exception: it is the function of the platform.

A not-a-number operand is answered in quiet form, the left one first; an operation without a
value answers `Single.undefined`.

## Main definitions

* `Single.add`, `sub`, `mul`, `div`, `rem`, `neg`, `pow` — arithmetic
* `Single.compare?` — the numeric order, undefined next to a not-a-number
-/

namespace SwarmVm

namespace Numeric

/-- A single-precision number, as its bits. -/
structure Single where
  /-- The pattern. -/
  bits : UInt32
deriving DecidableEq, Repr

namespace Single

/-- The sign bit and the bits below it, put together. -/
def ofParts (negative : Bool) (pattern : Nat) : Single :=
  ⟨UInt32.ofNat (pattern + if negative then Format.single.signBit else 0)⟩

/-- The sign bit is set. -/
def isNegative (x : Single) : Bool := decide (Format.single.signBit ≤ x.bits.toNat)

/-- The bits below the sign. -/
def pattern (x : Single) : Nat := x.bits.toNat % Format.single.signBit

/-- The number apart from its sign. -/
def magnitude (x : Single) : Magnitude := Format.single.read x.pattern

/-- `x` is not a number. -/
def isNan (x : Single) : Bool := decide (Format.single.infinity < x.pattern)

/-- Either zero. -/
def isZero (x : Single) : Bool := x.pattern == 0

/-- A not-a-number in quiet form, with its sign and payload. -/
def quiet (x : Single) : Single :=
  ofParts x.isNegative (Format.single.infinity + (x.pattern % Format.single.unit |||
    Format.single.quietBit))

/-- The answer of an operation that has no value. -/
def undefined : Single :=
  ofParts true (Format.single.infinity + Format.single.quietBit)

/-- Signed infinity. -/
def infinity (negative : Bool) : Single := ofParts negative Format.single.infinity

/-- Signed zero. -/
def zero (negative : Bool) : Single := ofParts negative 0

/-- The nearest single to a signed magnitude `significand * 2 ^ exponent`, a little more when
`inexact`. -/
def round (negative : Bool) (significand : Nat) (exponent : Int) (inexact : Bool) : Single :=
  ofParts negative (Format.single.round significand exponent inexact)

/-- The nearest single to an integer. -/
def ofInt (i : Int) : Single := round (i < 0) i.natAbs 0 false

/-- `significand * 2 ^ exponent` counted in a smaller power of two. -/
def scaled (significand : Nat) (exponent unit : Int) : Nat :=
  significand * Nat.pow 2 (exponent - unit).toNat

/-- The operands of an operation in which a not-a-number wins over every value. -/
def orNan (x y : Single) (value : Single) : Single :=
  if x.isNan then x.quiet else if y.isNan then y.quiet else value

/-- The sum of two signed magnitudes. An exact zero is negative only when both parts are. -/
def addFinite (sx : Bool) (mx : Nat) (ex : Int) (sy : Bool) (my : Nat) (ey : Int) : Single :=
  let unit := min ex ey
  let signed (s : Bool) (m : Nat) (e : Int) : Int :=
    if s then -(scaled m e unit : Int) else scaled m e unit
  let total := signed sx mx ex + signed sy my ey
  if total = 0 then zero (sx && sy) else round (total < 0) total.natAbs unit false

/-- The sum of two numbers that are not not-a-numbers, the second with the sign `sy`. -/
def addSigned (x y : Single) (sy : Bool) : Single :=
  match x.magnitude, y.magnitude with
  | .infinite, .infinite => if x.isNegative = sy then infinity sy else undefined
  | .infinite, _ => infinity x.isNegative
  | _, .infinite => infinity sy
  | .finite mx ex, .finite my ey => addFinite x.isNegative mx ex sy my ey
  | _, _ => undefined

/-- Addition. -/
def add (x y : Single) : Single := orNan x y (addSigned x y y.isNegative)

/-- Subtraction. -/
def sub (x y : Single) : Single := orNan x y (addSigned x y (!y.isNegative))

/-- Multiplication. -/
def mul (x y : Single) : Single :=
  let negative := x.isNegative != y.isNegative
  orNan x y <| match x.magnitude, y.magnitude with
    | .infinite, .finite 0 _ => undefined
    | .finite 0 _, .infinite => undefined
    | .infinite, _ => infinity negative
    | _, .infinite => infinity negative
    | .finite mx ex, .finite my ey => round negative (mx * my) (ex + ey) false
    | _, _ => undefined

/-- Bits by which a dividend is shifted so that a quotient has more bits than any single. -/
def quotientShift (divisor : Nat) : Nat := Format.single.fractionBits + 3 + Nat.log2 divisor

/-- Division. The quotient is taken to a few bits more than the format holds, and what is left
over only tells whether it is exact. -/
def div (x y : Single) : Single :=
  let negative := x.isNegative != y.isNegative
  orNan x y <| match x.magnitude, y.magnitude with
    | .infinite, .infinite => undefined
    | .infinite, _ => infinity negative
    | _, .infinite => zero negative
    | .finite 0 _, .finite 0 _ => undefined
    | _, .finite 0 _ => infinity negative
    | .finite mx ex, .finite my ey =>
      let shift := quotientShift my
      let dividend := mx * Nat.pow 2 shift
      round negative (dividend / my) (ex - ey - shift) (dividend % my != 0)
    | _, _ => undefined

/-- The remainder of a division toward zero, with the sign of the dividend. It is exact. -/
def rem (x y : Single) : Single :=
  orNan x y <| match x.magnitude, y.magnitude with
    | .infinite, _ => undefined
    | _, .finite 0 _ => undefined
    | _, .infinite => x
    | .finite mx ex, .finite my ey =>
      let unit := min ex ey
      round x.isNegative (scaled mx ex unit % scaled my ey unit) unit false
    | _, _ => undefined

/-- The number with its sign flipped. -/
def neg (x : Single) : Single := ofParts (!x.isNegative) x.pattern

/-- The number is an odd integer. -/
def isOddInteger (x : Single) : Bool :=
  match x.magnitude with
  | .finite m e =>
    if e < 0 then m % Nat.pow 2 (e.natAbs + 1) == Nat.pow 2 e.natAbs else e == 0 && m % 2 == 1
  | _ => false

/-- A not-a-number raised to `y`. An odd power takes the sign of its base twice, so that the
answer is positive. -/
def powNan (x y : Single) : Single :=
  if y.isOddInteger then ofParts false x.quiet.pattern else x.quiet

/-- `x` raised to `y`, by the platform's power function. -/
def pow (x y : Single) : Single :=
  let power := Float32.pow (Float32.ofBits x.bits) (Float32.ofBits y.bits)
  if power.isNaN then
    if x.isNan then powNan x y else if y.isNan then y.quiet else undefined
  else ⟨power.toBits⟩

/-- A key that orders numbers as their values are ordered; both zeros have the key zero. -/
def orderKey (x : Single) : Int := if x.isNegative then -(x.pattern : Int) else x.pattern

/-- The order of two numbers, `none` when one of them is not a number. -/
def compare? (x y : Single) : Option Ordering :=
  if x.isNan || y.isNan then none else some (compare x.orderKey y.orderKey)

end Single

end Numeric

end SwarmVm
