import SwarmVm.Proofs.Heap.Spared

/-!
# Equal objects

Tables look keys up by `Heap.compare`, which mixes three notions: an object is equal to itself
whatever it is, numbers are equal across both representations when their values are, and strings
and words of the embedder are equal when their numbers are. A not-a-number, a table and a function
are equal to nothing but themselves.

Together they are an equivalence. The only step that is not read off is that two integers equal to
one fraction are equal to each other: integers have sixteen bits and a single has twenty-four, so
an integer is rounded to a single without loss (`Single.orderKey_ofInt_injOn`).

## Main definitions

* `Value.rank?` — what the equality of values looks at
* `Heap.Alike` — two objects are equal

## Main results

* `Value.order_eq_iff` — values are equal when they have the same rank
* `Heap.alike_equivalence` — equality of objects is an equivalence
* `Heap.alike_congr` — it depends on nothing but the values of what is not a table
-/

namespace SwarmVm

namespace Numeric

/-! ### Integers in single precision -/

/-- The pattern of a small positive integer: its bits moved to the top of the fraction, and above
them the exponent field. -/
theorem Format.round_single_of_lt {n : Nat} (hpos : n ≠ 0) (hn : n < 2 ^ 16) :
    Format.single.round n 0 false
      = n * 2 ^ (23 - Nat.log2 n) + (Nat.log2 n + 126) * 8388608
    ∧ 8388608 ≤ n * 2 ^ (23 - Nat.log2 n) ∧ n * 2 ^ (23 - Nat.log2 n) < 16777216 := by
  have hlog : Nat.log2 n < 16 := (Nat.log2_lt hpos).2 hn
  have hge : 8388608 ≤ n * 2 ^ (23 - Nat.log2 n) := by
    calc 8388608 = 2 ^ Nat.log2 n * 2 ^ (23 - Nat.log2 n) := by
          rw [← Nat.pow_add, Nat.add_sub_cancel' (by omega)]
      _ ≤ n * 2 ^ (23 - Nat.log2 n) := Nat.mul_le_mul_right _ (Nat.log2_self_le hpos)
  have hlt : n * 2 ^ (23 - Nat.log2 n) < 16777216 := by
    calc n * 2 ^ (23 - Nat.log2 n) < 2 ^ (Nat.log2 n + 1) * 2 ^ (23 - Nat.log2 n) :=
          Nat.mul_lt_mul_of_pos_right Nat.lt_log2_self (Nat.two_pow_pos _)
      _ = 16777216 := by
          rw [← Nat.pow_add, show Nat.log2 n + 1 + (23 - Nat.log2 n) = 24 by omega]
  have hleast : Format.single.leastExponent = -149 := by decide
  have hcounting : Format.single.countingExponent n 0 = (Nat.log2 n : Int) - 23 := by
    have hbits : (Format.single.fractionBits : Int) = 23 := rfl
    rw [Format.countingExponent, hleast, hbits]
    omega
  refine ⟨?_, hge, hlt⟩
  rw [Format.round, if_neg hpos]
  simp only [hcounting, hleast]
  rw [if_pos (by omega), show ((0 : Int) - (Nat.log2 n - 23)).toNat = 23 - Nat.log2 n by omega,
    show ((Nat.log2 n : Int) - 23 - -149).toNat = Nat.log2 n + 126 by omega]
  have hunit : Format.single.unit = 8388608 := by decide
  have hinfinity : Format.single.infinity = 255 * 8388608 := by decide
  rw [hunit, hinfinity]
  change min (n * 2 ^ (23 - Nat.log2 n) + _) _ = _
  omega

/-- Rounding keeps the order of small integers. -/
theorem Format.round_single_lt {m n : Nat} (hmn : m < n) (hn : n < 2 ^ 16) :
    Format.single.round m 0 false < Format.single.round n 0 false := by
  obtain ⟨hround, hge, _⟩ := Format.round_single_of_lt (by omega : n ≠ 0) hn
  by_cases hm : m = 0
  · subst hm
    rw [hround]
    change 0 < _
    omega
  · obtain ⟨hround', _, hlt'⟩ := Format.round_single_of_lt hm (by omega)
    have hlog : Nat.log2 m ≤ Nat.log2 n :=
      (Nat.le_log2 (by omega)).2 ((Nat.log2_self_le hm).trans hmn.le)
    rw [hround, hround']
    rcases hlog.lt_or_eq with hlog | hlog
    · omega
    · rw [hlog]
      have := Nat.mul_lt_mul_of_pos_right hmn (Nat.two_pow_pos (23 - Nat.log2 n))
      omega

theorem Format.round_single_lt_infinity {n : Nat} (hn : n < 2 ^ 16) :
    Format.single.round n 0 false < Format.single.infinity := by
  by_cases hpos : n = 0
  · subst hpos
    decide
  · obtain ⟨hround, _, hlt⟩ := Format.round_single_of_lt hpos hn
    have hlog : Nat.log2 n < 16 := (Nat.log2_lt hpos).2 hn
    have hinfinity : Format.single.infinity = 255 * 8388608 := by decide
    rw [hround, hinfinity]
    omega

namespace Single

theorem pattern_ofParts (negative : Bool) {pattern : Nat} (hp : pattern < Format.single.signBit) :
    (ofParts negative pattern).pattern = pattern
      ∧ (ofParts negative pattern).isNegative = negative := by
  have hsign : Format.single.signBit = 2147483648 := by decide
  rw [Single.pattern, isNegative, ofParts, hsign]
  rw [hsign] at hp
  cases negative
  · rw [UInt32.toNat_ofNat_of_lt' (by simp [UInt32.size]; omega)]
    simp
    omega
  · rw [UInt32.toNat_ofNat_of_lt' (by simp [UInt32.size]; omega)]
    simp
    omega

theorem orderKey_ofInt {i : Int} (hi : i.natAbs < 2 ^ 16) :
    (ofInt i).isNan = false ∧ (ofInt i).orderKey
      = if i < 0 then -(Format.single.round i.natAbs 0 false : Int)
        else Format.single.round i.natAbs 0 false := by
  have hlt := Format.round_single_lt_infinity hi
  have hsign : Format.single.infinity < Format.single.signBit := by decide
  obtain ⟨hp, hneg⟩ := pattern_ofParts (decide (i < 0)) (hlt.trans hsign)
  rw [ofInt, Single.round, isNan, orderKey, hp, hneg]
  simp [hlt.le]

theorem orderKey_ofInt_lt {i j : Int} (hij : i < j) (hi : i.natAbs < 2 ^ 16)
    (hj : j.natAbs < 2 ^ 16) : (ofInt i).orderKey < (ofInt j).orderKey := by
  rw [(orderKey_ofInt hi).2, (orderKey_ofInt hj).2]
  by_cases hneg : j < 0
  · rw [if_pos hneg, if_pos (hij.trans hneg)]
    have := Format.round_single_lt (by omega : j.natAbs < i.natAbs) hi
    omega
  · rw [if_neg hneg]
    split
    · have hzero : Format.single.round 0 0 false = 0 := rfl
      have := Format.round_single_lt (by omega : 0 < i.natAbs) hi
      omega
    · have := Format.round_single_lt (by omega : i.natAbs < j.natAbs) hj
      omega

/-- Different small integers are different numbers. -/
theorem orderKey_ofInt_injOn {i j : Int} (hi : i.natAbs < 2 ^ 16) (hj : j.natAbs < 2 ^ 16)
    (he : (ofInt i).orderKey = (ofInt j).orderKey) : i = j := by
  rcases lt_trichotomy i j with hlt | heq | hlt
  · exact absurd he (orderKey_ofInt_lt hlt hi hj).ne
  · exact heq
  · exact absurd he (orderKey_ofInt_lt hlt hj hi).ne'

theorem getD_compare?_eq_iff (x y : Single) : (x.compare? y).getD .lt = .eq
    ↔ x.isNan = false ∧ y.isNan = false ∧ x.orderKey = y.orderKey := by
  rw [compare?]
  split
  · next hnan =>
    rw [Bool.or_eq_true] at hnan
    simp only [Option.getD_none, reduceCtorEq, false_iff]
    rintro ⟨hx, hy, _⟩
    simp [hx, hy] at hnan
  · next hnan =>
    rw [Bool.or_eq_true, not_or, Bool.not_eq_true, Bool.not_eq_true] at hnan
    simp [hnan.1, hnan.2]

end Single

end Numeric

open Numeric

/-! ### Equal values -/

namespace Value

/-- What the equality of values looks at. Tables, functions and not-a-numbers have no rank. -/
def rank? : Value → Option (Nat × Int)
  | nil => some (0, 0)
  | int i => some (1, (Single.ofInt i.toInt).orderKey)
  | float x => if x.widen.isNan then none else some (1, x.widen.orderKey)
  | string id => some (2, id.toNat)
  | userdata word => some (3, word.toNat)
  | table _ => none
  | closure _ => none

theorem natAbs_toInt_lt (i : Int16) : i.toInt.natAbs < 2 ^ 16 := by
  have := i.toInt_lt
  have := i.le_toInt
  omega

theorem isNan_ofInt (i : Int16) : (Single.ofInt i.toInt).isNan = false :=
  (Single.orderKey_ofInt (natAbs_toInt_lt i)).1

/-- Values are equal when they have the same rank. -/
theorem order_eq_iff (v w : Value) :
    v.order w = .eq ↔ ∃ rank, v.rank? = some rank ∧ w.rank? = some rank := by
  have hint : ∀ i j : Int16, i.toInt = j.toInt
      ↔ (Single.ofInt j.toInt).orderKey = (Single.ofInt i.toInt).orderKey := by
    intro i j
    refine ⟨fun he => by rw [he], fun he => ?_⟩
    exact Single.orderKey_ofInt_injOn (natAbs_toInt_lt i) (natAbs_toInt_lt j) he.symm
  have hfloat : ∀ (x : Half) rank, (if x.widen.isNan = true then none
      else some (1, x.widen.orderKey)) = some rank
      ↔ x.widen.isNan = false ∧ (1, x.widen.orderKey) = rank := by
    intro x rank
    cases x.widen.isNan <;> simp
  cases v with
  | nil => cases w <;> simp [order, rank?, hfloat]
  | int i =>
    cases w with
    | float x =>
      simp only [order, rank?, hfloat, Single.getD_compare?_eq_iff, isNan_ofInt, true_and,
        Option.some.injEq, exists_eq_left', Prod.mk.injEq]
      exact and_congr_right fun _ => eq_comm
    | _ => simp [order, rank?, hint]
  | float x =>
    cases w with
    | float y =>
      simp only [order, rank?, hfloat, Single.getD_compare?_eq_iff]
      constructor
      · rintro ⟨hx, hy, he⟩
        exact ⟨_, ⟨hx, rfl⟩, hy, by rw [he]⟩
      · rintro ⟨_, ⟨hx, rfl⟩, hy, he⟩
        exact ⟨hx, hy, (Prod.mk.inj he).2.symm⟩
    | _ => simp [order, rank?, hfloat, Single.getD_compare?_eq_iff, isNan_ofInt]
  | string id =>
    cases w with
    | string id' =>
      simp only [order, rank?, compare_eq_iff_eq, Option.some.injEq, exists_eq_left', Prod.mk.injEq,
        true_and, Nat.cast_inj]
      exact eq_comm
    | _ => simp [order, rank?, hfloat]
  | table t => cases w <;> simp [order, rank?]
  | closure c => cases w <;> simp [order, rank?]
  | userdata word =>
    cases w with
    | userdata word' =>
      simp only [order, rank?, compare_eq_iff_eq, Option.some.injEq, exists_eq_left', Prod.mk.injEq,
        true_and, Nat.cast_inj]
      exact eq_comm
    | _ => simp [order, rank?, hfloat]

/-- What has the rank of a string is that string. -/
theorem eq_string_of_rank? {v : Value} {id : NameId}
    (hv : v.rank? = (Value.string id).rank?) : v = .string id := by
  cases v with
  | string id' =>
    simp only [rank?, Option.some.injEq, Prod.mk.injEq, true_and, Int.natCast_inj] at hv
    rw [UInt16.toNat_inj.1 hv]
  | float x =>
    simp only [rank?] at hv
    split at hv <;> simp at hv
  | _ => simp [rank?] at hv

end Value

/-! ### Equal objects -/

namespace Heap

variable {h h' : Heap} {a b c t : Ref}

/-- The two objects are equal. -/
def Alike (h : Heap) (a b : Ref) : Prop := h.compare a b = .eq

instance (h : Heap) (a b : Ref) : Decidable (h.Alike a b) :=
  inferInstanceAs (Decidable (h.compare a b = .eq))

theorem alike_iff : h.Alike a b
    ↔ a = b ∨ ∃ rank, (h.value a).rank? = some rank ∧ (h.value b).rank? = some rank := by
  rw [Alike, Heap.compare]
  split
  · next he => simp [he]
  · next ne => rw [Value.order_eq_iff, or_iff_right ne]

/-- Equality of objects is an equivalence. -/
theorem alike_equivalence (h : Heap) : Equivalence h.Alike where
  refl _ := alike_iff.2 (.inl rfl)
  symm := by
    intro a b hab
    rcases alike_iff.1 hab with rfl | ⟨rank, ha, hb⟩
    · exact hab
    · exact alike_iff.2 (.inr ⟨rank, hb, ha⟩)
  trans := by
    intro a b c hab hbc
    rcases alike_iff.1 hab with rfl | ⟨rank, ha, hb⟩
    · exact hbc
    · rcases alike_iff.1 hbc with rfl | ⟨rank', hb', hc⟩
      · exact hab
      · rw [hb, Option.some.injEq] at hb'
        exact alike_iff.2 (.inr ⟨rank, ha, hb' ▸ hc⟩)

theorem Alike.symm (hab : h.Alike a b) : h.Alike b a := (alike_equivalence h).symm hab

theorem Alike.trans (hab : h.Alike a b) (hbc : h.Alike b c) : h.Alike a c :=
  (alike_equivalence h).trans hab hbc

theorem beq_compare : (h.compare a b == .eq) = true ↔ h.Alike a b := beq_iff_eq

theorem rank?_of_isTable (ht : h.IsTable t) : (h.value t).rank? = none := by
  obtain ⟨tv, hv, _⟩ := ht.value
  rw [hv]
  rfl

/-- What equals a string is the same string. -/
theorem alike_iff_of_string {name : NameId} (hb : h.value b = .string name) :
    h.Alike a b ↔ h.value a = .string name := by
  rw [alike_iff, hb]
  constructor
  · rintro (rfl | ⟨rank, ha, hs⟩)
    · exact hb
    · exact Value.eq_string_of_rank? (ha.trans hs.symm)
  · intro ha
    exact .inr ⟨_, by rw [ha]; rfl, rfl⟩

/-- The same objects are equal in another heap when their values, or at least their ranks, are
the same. -/
theorem alike_congr (ha : (h'.value a).rank? = (h.value a).rank?)
    (hb : (h'.value b).rank? = (h.value b).rank?) : h'.Alike a b ↔ h.Alike a b := by
  rw [alike_iff, alike_iff, ha, hb]

/-- An operation on a table does not change what anything is equal to: it alters nothing but the
table, and a table is equal to itself only. -/
theorem Spares.rank? {r : Ref} (sp : Spares {t} h h') (ht : h.IsTable t) (ht' : h'.IsTable t)
    (hv : h.isValid r = true) : (h'.value r).rank? = (h.value r).rank? := by
  by_cases ne : r = t
  · subst ne
    rw [rank?_of_isTable ht, rank?_of_isTable ht']
  · rw [(sp.unaltered_of_ne ne hv).value]

end Heap

end SwarmVm
