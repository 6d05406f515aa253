/-!
# Wrapping logical clocks

Two clocks order the updates that robots exchange. Stigmergy entries carry eight bits, and a tag
counts as newer only within a window of fifty ticks ahead. Swarm memberships carry sixteen bits,
and the half of the circle ahead of a tag counts as not older.
-/

namespace SwarmVm

namespace Clock

/-- How far ahead an eight-bit tag may be and still count as newer. -/
def window : UInt8 := 50

/-- `a` is reached from `b` by advancing it by one tick up to `window` ticks, wrapping around. -/
def isNewer (a b : UInt8) : Bool :=
  let ahead := a - b
  1 ≤ ahead && ahead ≤ window

/-- `a` is the same as `b` or lies in the half circle of sixteen-bit tags ahead of it. -/
def notOlder (a b : UInt16) : Bool := (a - b).toNat < 32768

/-- `a` is `notOlder` than `b` and different from it. -/
def isAfter (a b : UInt16) : Bool := a != b && notOlder a b

end Clock

end SwarmVm
