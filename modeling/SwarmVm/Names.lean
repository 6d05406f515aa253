/-!
# Names

Strings are referred to by number. The names the machine itself uses come first and have fixed
numbers; the strings of an image are numbered after them.

## Main definitions

* `Builtin` — the names the machine uses
* `NameTable` — all strings in the order of their numbers
-/

namespace SwarmVm

/-- The names that the machine itself refers to. -/
inductive Builtin where
  | id | neighbors | stigmergy | swarm | log | init | step
  | broadcast | listen | ignore | get | foreach | map | reduce | filter | count | kin | nonkin
  | distance | azimuth | elevation
  | create | put | size | onconflict | onconflictlost | robot | data | timestamp
  | join | leave | isIn | select | exec
deriving DecidableEq, Repr

namespace Builtin

/-- The texts of the builtin names, in the order of their numbers. -/
def texts : List String :=
  ["id", "neighbors", "stigmergy", "swarm", "log", "init", "step",
    "broadcast", "listen", "ignore", "get", "foreach", "map", "reduce", "filter", "count", "kin",
    "nonkin", "distance", "azimuth", "elevation",
    "create", "put", "size", "onconflict", "onconflictlost", "robot", "data", "timestamp",
    "join", "leave", "in", "select", "exec"]

/-- How many names are built in. -/
def total : Nat := texts.length

/-- The number of a builtin name. -/
def nameId (b : Builtin) : UInt16 := UInt16.ofNat b.ctorIdx

/-- The text of a builtin name. -/
def text (b : Builtin) : String := texts.getD b.ctorIdx ""

end Builtin

/-- The strings known to a machine, the builtin names first. -/
structure NameTable where
  /-- The strings of the image, numbered after the builtin names. -/
  imageStrings : Array String := #[]
deriving DecidableEq, Repr

namespace NameTable

/-- All strings in the order of their numbers. -/
def toList (t : NameTable) : List String := Builtin.texts ++ t.imageStrings.toList

/-- How many strings there are. -/
def size (t : NameTable) : Nat := Builtin.total + t.imageStrings.size

/-- No strings at all. -/
def isEmpty (t : NameTable) : Bool := t.size = 0

/-- The table with the image strings replaced. -/
def load (_ : NameTable) (strings : List String) : NameTable := ⟨strings.toArray⟩

/-- The number of the first image string. -/
def firstImageId : UInt16 := UInt16.ofNat Builtin.total

/-- The number belongs to a string. -/
def contains (t : NameTable) (id : UInt16) : Bool := id.toNat < t.size

/-- The text of a numbered string. -/
def get? (t : NameTable) (id : UInt16) : Option String :=
  if id.toNat < Builtin.total then Builtin.texts[id.toNat]?
  else t.imageStrings[id.toNat - Builtin.total]?

/-- The first number with the given text. Builtin names win over equal image strings. -/
def find? (t : NameTable) (text : String) : Option UInt16 :=
  (t.toList.findIdx? (· == text)).map UInt16.ofNat

end NameTable

end SwarmVm
