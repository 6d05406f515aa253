import SwarmVm.Numeric.Half
import SwarmVm.Text.Digits

/-!
# Shortest decimal text

A number is written with the fewest decimal digits that are read back as the same number, and of
the texts with that many digits the nearest to it. The reals that are read back as a given single
form an interval around it; its ends belong to it when the significand is even. For one digit,
two digits and so on, the two multiples of the power of ten around the number are tried, and the
first hit is taken.

The notation is positional at every size, and an integer has no point.

## Main definitions

* `RoundingInterval` — a number with the interval of reals that round to it, on one integer scale
* `RoundingInterval.shortest` — the fewest digits, and the power of ten of the last one
* `Single.text` — the text of a number
-/

namespace SwarmVm

namespace Numeric

/-- A positive number and the reals rounding to it. All three are counts of `2 ^ exponent`. -/
structure RoundingInterval where
  /-- The lower end. -/
  low : Nat
  /-- The number. -/
  value : Nat
  /-- The upper end. -/
  high : Nat
  /-- The power of two that is counted. -/
  exponent : Int
  /-- The ends belong to the interval. -/
  closed : Bool
deriving Repr

namespace RoundingInterval

/-- The interval of a positive single `significand * 2 ^ exponent`. Just above a power of two the
numbers below are twice as dense, so the lower end is twice as near. -/
def ofSingle (significand : Nat) (exponent : Int) : RoundingInterval where
  low :=
    if significand = Format.single.unit ∧ Format.single.leastExponent < exponent then
      4 * significand - 1
    else 4 * significand - 2
  value := 4 * significand
  high := 4 * significand + 2
  exponent := exponent - 2
  closed := significand % 2 = 0

/-- `count * 2 ^ exponent` against `candidate * 10 ^ power`, both brought to integers. -/
def integers (n : RoundingInterval) (count candidate : Nat) (power : Int) : Nat × Nat :=
  (count * Nat.pow 2 n.exponent.toNat * Nat.pow 10 (-power).toNat,
    candidate * Nat.pow 10 power.toNat * Nat.pow 2 (-n.exponent).toNat)

/-- `candidate * 10 ^ power` is read back as the number. -/
def holds (n : RoundingInterval) (candidate : Nat) (power : Int) : Bool :=
  let (low, c) := n.integers n.low candidate power
  let (high, _) := n.integers n.high candidate power
  if n.closed then low ≤ c && c ≤ high else low < c && c < high

/-- The largest multiple of `10 ^ power` that is not above the number, as a count. -/
def floor (n : RoundingInterval) (power : Int) : Nat :=
  let (v, unit) := n.integers n.value 1 power
  v / unit

/-- The number is at least half way from `candidate` to its successor. -/
def nearerAbove (n : RoundingInterval) (candidate : Nat) (power : Int) : Bool :=
  let (v, middle) := n.integers (2 * n.value) (2 * candidate + 1) power
  middle ≤ v

/-- The multiple of `10 ^ power` next to the number that is read back as it, if there is one; of
two the nearer, and the upper one half way between. -/
def atPower? (n : RoundingInterval) (power : Int) : Option Nat :=
  let below := n.floor power
  match n.holds below power, n.holds (below + 1) power with
  | true, true => some (if n.nearerAbove below power then below + 1 else below)
  | true, false => some below
  | false, true => some (below + 1)
  | false, false => none

/-- Try `tries` powers of ten from `power` downward. -/
def search (n : RoundingInterval) : Nat → Int → Nat × Int
  | 0, power => (n.floor power, power)
  | tries + 1, power =>
    match n.atPower? power with
    | some candidate => (candidate, power)
    | none => n.search tries (power - 1)

/-- The most digits before the point that a single can have. -/
def topPower : Int := 39

/-- Powers of ten to try: from the largest single down to the last digit of the smallest. -/
def powers : Nat := 100

/-- The coarsest count of a power of ten that is read back as the number, with that power. -/
def shortest (n : RoundingInterval) : Nat × Int := n.search powers topPower

end RoundingInterval

/-- The positional text of `digits * 10 ^ power`. -/
def positional (digits : Nat) (power : Int) : String :=
  let ds := Nat.toDigits 10 digits
  if 0 ≤ power then String.ofList (ds ++ List.replicate power.toNat '0')
  else
    let places := (-power).toNat
    let padded := Text.padLeft (places + 1) '0' ds
    let whole := padded.take (padded.length - places)
    let fraction := padded.drop (padded.length - places)
    String.ofList (whole ++ '.' :: fraction)

namespace Single

/-- The shortest positional text that is read back as the number. -/
def text (x : Single) : String :=
  let sign := if x.isNegative then "-" else ""
  match x.magnitude with
  | .nan _ => "NaN"
  | .infinite => sign ++ "inf"
  | .finite significand exponent =>
    if significand = 0 then sign ++ "0"
    else
      let (digits, power) := (RoundingInterval.ofSingle significand exponent).shortest
      sign ++ positional digits power

end Single

/-- The text of a half is that of the same number in single precision. -/
def Half.text (x : Half) : String := x.widen.text

end Numeric

end SwarmVm
