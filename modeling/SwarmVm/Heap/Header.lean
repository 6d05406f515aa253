import SwarmVm.Value

/-!
# Object headers

The first byte of a heap object holds the tag of its kind and five flags:

```
bits 0 to 2   kind
bit 3         valid
bit 4         permanent
bit 5         mark
bit 6         flag a: an array, or a host closure
bit 7         flag b: a cloned array, or a closure with a captured record
```

## Main results

* `Header.ofByte_toByte`, `Header.toByte_ofByte` — a header and its byte determine each other
-/

namespace SwarmVm

/-- The header byte of an object, taken apart. -/
structure Header where
  /-- The tag of the kind, below eight. -/
  tag : Nat := 0
  /-- The slot holds an object. -/
  valid : Bool := false
  /-- The object is a root of every collection. -/
  permanent : Bool := false
  /-- The last collection reached the object. -/
  mark : Bool := false
  /-- Array, or host closure. -/
  flagA : Bool := false
  /-- Cloned array, or closure with a captured record. -/
  flagB : Bool := false
deriving DecidableEq, Repr

namespace Header

/-- The header with the given byte. -/
@[inline] def ofByte (b : UInt8) : Header where
  tag := b.toNat % 8
  valid := b.toNat / 8 % 2 == 1
  permanent := b.toNat / 16 % 2 == 1
  mark := b.toNat / 32 % 2 == 1
  flagA := b.toNat / 64 % 2 == 1
  flagB := b.toNat / 128 == 1

/-- The flag bits of a header. -/
def flags (h : Header) : Nat :=
  8 * h.valid.toNat + 16 * h.permanent.toNat + 32 * h.mark.toNat + 64 * h.flagA.toNat
    + 128 * h.flagB.toNat

/-- The byte of a header. -/
def toByte (h : Header) : UInt8 := UInt8.ofNat (h.tag + h.flags)

/-- The kind of the object; tag seven has none. -/
def kind? (h : Header) : Option Kind := Kind.ofTag? h.tag

/-- The kind of the object, nil when the tag has none. -/
def kind (h : Header) : Kind := h.kind?.getD .nil

/-- The header of a free slot. -/
def free : Header := {}

/-- The header of a fresh object. -/
def fresh : Header := { valid := true }

theorem toByte_ofByte (b : UInt8) : (ofByte b).toByte = b := by
  have key : ∀ n : Fin 256, (ofByte (UInt8.ofNat n)).toByte = UInt8.ofNat n := by decide +kernel
  have h := key ⟨b.toNat, b.toNat_lt⟩
  simpa using h

theorem ofByte_toByte (h : Header) (ht : h.tag < 8) : ofByte h.toByte = h := by
  obtain ⟨t, v, p, m, a, b⟩ := h
  have key : ∀ (t : Fin 8) (v p m a b : Bool), ofByte (toByte ⟨t, v, p, m, a, b⟩)
      = ⟨t, v, p, m, a, b⟩ := by decide +kernel
  exact key ⟨t, ht⟩ v p m a b

end Header

/-- The tag and flags of a value together with its two words. -/
structure Packed where
  /-- Tag and flags `a` and `b`. -/
  header : Header
  /-- First word. -/
  word : UInt16
  /-- Second word. -/
  aux : UInt16
deriving DecidableEq, Repr

namespace Value

/-- A value as tag, flags and words. -/
def pack : Value → Packed
  | nil => ⟨{ tag := Kind.nil.tag }, 0, 0⟩
  | int i => ⟨{ tag := Kind.int.tag }, i.toUInt16, 0⟩
  | float x => ⟨{ tag := Kind.float.tag }, x.bits, 0⟩
  | string id => ⟨{ tag := Kind.string.tag }, id, 0⟩
  | table t => ⟨{ tag := Kind.table.tag, flagA := t.isArray, flagB := t.isCloned }, t.head, 0⟩
  | closure c =>
    let address := match c.target with
      | .code address => address
      | .host id => id
    ⟨{ tag := Kind.closure.tag, flagA := c.isHost, flagB := c.isLambda }, address,
      c.captured.getD 0⟩
  | userdata w =>
    ⟨{ tag := Kind.userdata.tag }, UInt16.ofNat (w.toNat % 65536), UInt16.ofNat (w.toNat / 65536)⟩

/-- The value with the given header and words. -/
def unpack (header : Header) (word aux : UInt16) : Value :=
  match header.kind? with
  | some .int => int word.toInt16
  | some .float => float ⟨word⟩
  | some .string => string word
  | some .table => table ⟨word, header.flagA, header.flagB⟩
  | some .closure =>
    closure ⟨if header.flagA then .host word else .code word,
      if header.flagB then some aux else none⟩
  | some .userdata => userdata (UInt32.ofNat (word.toNat + 65536 * aux.toNat))
  | some .nil | none => nil

end Value

end SwarmVm
