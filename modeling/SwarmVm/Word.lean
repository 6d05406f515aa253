/-!
# Words and their bytes

A sixteen-bit word is two bytes, the low one and the high one. The store writes the low byte
first, the radio the high byte first; both are built from the three functions of this file.

## Main results

* `Word.ofBytes_low_high` — a word is put together again from its two bytes
* `Word.low_ofBytes`, `Word.high_ofBytes` — and two bytes are recovered from their word
-/

namespace SwarmVm

namespace Word

/-- The low byte of a word. -/
@[inline] def low (w : UInt16) : UInt8 := UInt8.ofNat (w.toNat % 256)

/-- The high byte of a word. -/
@[inline] def high (w : UInt16) : UInt8 := UInt8.ofNat (w.toNat / 256)

/-- The word with the given low and high byte. -/
@[inline] def ofBytes (low high : UInt8) : UInt16 := UInt16.ofNat (low.toNat + 256 * high.toNat)

theorem toNat_low (w : UInt16) : (low w).toNat = w.toNat % 256 := by
  simp [low]

theorem toNat_high (w : UInt16) : (high w).toNat = w.toNat / 256 := by
  have := w.toNat_lt
  simp [high]
  omega

theorem toNat_ofBytes (l h : UInt8) : (ofBytes l h).toNat = l.toNat + 256 * h.toNat := by
  have := l.toNat_lt
  have := h.toNat_lt
  simp [ofBytes]
  omega

@[simp] theorem ofBytes_low_high (w : UInt16) : ofBytes (low w) (high w) = w := by
  apply UInt16.toNat_inj.1
  rw [toNat_ofBytes, toNat_low, toNat_high]
  omega

@[simp] theorem low_ofBytes (l h : UInt8) : low (ofBytes l h) = l := by
  apply UInt8.toNat_inj.1
  have := l.toNat_lt
  rw [toNat_low, toNat_ofBytes]
  omega

@[simp] theorem high_ofBytes (l h : UInt8) : high (ofBytes l h) = h := by
  apply UInt8.toNat_inj.1
  have := l.toNat_lt
  rw [toNat_high, toNat_ofBytes]
  omega

end Word

end SwarmVm
