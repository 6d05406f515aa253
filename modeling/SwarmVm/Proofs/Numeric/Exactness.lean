import Mathlib
import SwarmVm.Proofs.Heap.Comparison

/-!
# What numbers are worth

A pattern stands for a rational number or an infinity, and both formats are read in the same way:
below infinity a pattern is worth a whole number of the smallest steps of its format
(`Format.steps`), and the steps grow with the pattern. Everything about order and exactness follows
from that count.

A number that fits in the fraction of a format is rounded without loss, whatever its exponent: the
pattern that `Format.round` builds is the significand moved up to the exponent field, and reading it
moves it down again (`Format.steps_add`). Small integers in single precision and all halves are such
numbers.

## Main definitions

* `Extended` — the rationals with both infinities
* `Magnitude.number?`, `Single.number?`, `Half.number?` — what a number is worth

## Main results

* `Format.steps_strictMono` — larger patterns are worth more
* `Single.compare?_eq_cmp` — the numeric order of singles is the order of what they are worth
* `Single.number?_ofInt`, `Half.number?_widen` — both conversions to single precision are exact
-/

namespace SwarmVm

namespace Numeric

/-- A rational number or one of the two infinities. -/
abbrev Extended := WithBot (WithTop ℚ)

/-- A rational number, with a sign. -/
def Extended.signed (negative : Bool) (q : ℚ) : Extended :=
  ((if negative then -q else q : ℚ) : WithTop ℚ)

/-- What a signed magnitude is worth, `none` when it is not a number. -/
def Magnitude.number? (negative : Bool) : Magnitude → Option Extended
  | .nan _ => none
  | .infinite => some (if negative then ⊥ else ⊤)
  | .finite significand exponent => some (.signed negative (significand * 2 ^ exponent))

/-- What a single is worth. -/
def Single.number? (x : Single) : Option Extended := x.magnitude.number? x.isNegative

/-- What a half is worth. -/
def Half.number? (x : Half) : Option Extended := x.magnitude.number? x.isNegative

/-! ### Patterns as counts of steps -/

namespace Format

variable {f : Format} {pattern c k n : Nat} {e : Int}

theorem unit_pos (f : Format) : 0 < f.unit := Nat.two_pow_pos _

/-- How many of the smallest steps of the format a pattern below infinity is worth. -/
def steps (f : Format) (pattern : Nat) : Nat :=
  if pattern / f.unit = 0 then pattern % f.unit
  else (pattern % f.unit + f.unit) * 2 ^ (pattern / f.unit - 1)

/-- A significand that fills the fraction may stand at any exponent, a smaller one at the least. -/
theorem steps_add (hc : c < 2 * f.unit) (hk : k = 0 ∨ f.unit ≤ c) :
    f.steps (c + k * f.unit) = c * 2 ^ k := by
  have hpos := f.unit_pos
  have hdiv : (c + k * f.unit) / f.unit = c / f.unit + k := Nat.add_mul_div_right _ _ hpos
  have hmod : (c + k * f.unit) % f.unit = c % f.unit := Nat.add_mul_mod_self_right _ _ _
  rw [steps, hdiv, hmod]
  by_cases hfull : f.unit ≤ c
  · have hone : c / f.unit = 1 := Nat.div_eq_of_lt_le (by omega) (by omega)
    have hrest : c % f.unit = c - f.unit := by
      rw [Nat.mod_eq_sub_mod hfull, Nat.mod_eq_of_lt (by omega)]
    rw [hone, hrest, if_neg (by omega), Nat.sub_add_cancel hfull, Nat.add_sub_cancel_left]
  · rw [Nat.div_eq_of_lt (by omega), Nat.mod_eq_of_lt (by omega),
      hk.resolve_right hfull, if_pos rfl, pow_zero, Nat.mul_one]

/-- Larger patterns are worth more. -/
theorem steps_strictMono (f : Format) : StrictMono f.steps := by
  refine strictMono_nat_of_lt_succ fun pattern => ?_
  have hpos := f.unit_pos
  -- the pattern as a significand at an exponent; its successor is the next significand there
  obtain ⟨c, k, rfl, hc, hk⟩ : ∃ c k, pattern = c + k * f.unit ∧ c < 2 * f.unit
      ∧ (k = 0 ∨ f.unit ≤ c) := by
    have hdecompose := Nat.mod_add_div' pattern f.unit
    have hlt := Nat.mod_lt pattern hpos
    cases hfield : pattern / f.unit with
    | zero => exact ⟨pattern % f.unit, 0, by rw [hfield] at hdecompose; omega, by omega, .inl rfl⟩
    | succ k =>
      refine ⟨pattern % f.unit + f.unit, k, ?_, by omega, .inr (by omega)⟩
      rw [hfield, Nat.add_mul, Nat.one_mul] at hdecompose
      omega
  rw [steps_add hc hk]
  have htwo : 0 < 2 ^ k := Nat.two_pow_pos k
  by_cases hcarry : c + 1 < 2 * f.unit
  · rw [show c + k * f.unit + 1 = c + 1 + k * f.unit by omega,
      steps_add hcarry (by omega)]
    exact Nat.mul_lt_mul_of_pos_right (Nat.lt_succ_self c) htwo
  · have he : c + k * f.unit + 1 = f.unit + (k + 1) * f.unit := by
      rw [Nat.add_mul, Nat.one_mul]
      omega
    rw [he, steps_add (by omega) (.inr le_rfl), pow_succ]
    calc c * 2 ^ k < 2 * f.unit * 2 ^ k := Nat.mul_lt_mul_of_pos_right (by omega) htwo
      _ = f.unit * (2 ^ k * 2) := by ring

/-- Below infinity a pattern is worth its steps. -/
theorem number?_read_of_lt (hp : pattern < f.infinity) (negative : Bool) :
    (f.read pattern).number? negative
      = some (.signed negative (f.steps pattern * 2 ^ f.leastExponent)) := by
  have hfield : pattern / f.unit < f.topExponent := (Nat.div_lt_iff_lt_mul f.unit_pos).2 hp
  rw [read, steps]
  simp only [if_neg hfield.ne]
  split
  · rfl
  · next hne =>
    obtain ⟨k, hk⟩ := Nat.exists_eq_succ_of_ne_zero hne
    have hexponent : f.leastExponent + (k.succ : Nat) - 1 = (k : Int) + f.leastExponent := by omega
    rw [Magnitude.number?, hk, hexponent, zpow_add₀ two_ne_zero, zpow_natCast, Nat.succ_sub_one]
    push_cast
    rw [mul_assoc]

theorem read_infinity (f : Format) : f.read f.infinity = .infinite := by
  rw [read, infinity, Nat.mul_div_cancel _ f.unit_pos, Nat.mul_mod_left]
  simp

/-- What a finite magnitude looks like: its significand fits and its exponent is in range. -/
theorem bounds_of_read_finite {significand : Nat} (hp : pattern < f.infinity + f.unit)
    (hread : f.read pattern = .finite significand e) :
    significand < 2 * f.unit ∧ f.leastExponent ≤ e ∧ e < f.leastExponent + f.topExponent := by
  have hrest := Nat.mod_lt pattern f.unit_pos
  have hfield : pattern / f.unit < f.topExponent + 1 := by
    rw [Nat.div_lt_iff_lt_mul f.unit_pos, Nat.add_mul, Nat.one_mul]
    exact hp
  obtain ⟨field, hdiv⟩ : ∃ field, field = pattern / f.unit := ⟨_, rfl⟩
  rw [← hdiv] at hfield
  rw [read, ← hdiv] at hread
  split at hread
  · split at hread <;> exact absurd hread (by simp)
  · split at hread <;> obtain ⟨rfl, rfl⟩ := Magnitude.finite.inj hread <;> omega

theorem payload_of_read_nan {payload : Nat} (hread : f.read pattern = .nan payload) :
    payload < f.unit := by
  have hrest := Nat.mod_lt pattern f.unit_pos
  rw [read] at hread
  split at hread
  · split at hread
    · exact absurd hread (by simp)
    · exact Magnitude.nan.inj hread ▸ hrest
  · split at hread <;> exact absurd hread (by simp)

/-- Above infinity there is no number. -/
theorem read_of_gt (hp : f.infinity < pattern) (htop : pattern < f.infinity + f.unit) :
    f.read pattern = .nan (pattern - f.infinity) := by
  have hfield : pattern / f.unit = f.topExponent :=
    Nat.div_eq_of_lt_le hp.le (by rw [infinity] at htop; rw [Nat.add_mul, Nat.one_mul]; exact htop)
  have hrest : pattern % f.unit = pattern - f.infinity := by
    have := Nat.mod_add_div' pattern f.unit
    rw [hfield] at this
    rw [infinity]
    omega
  rw [read, hfield, hrest]
  simp only [if_true]
  rw [if_neg (by omega)]

/-! ### Rounding without loss -/

/-- A significand that fits in a format is rounded without loss, as long as its exponent is not
below the least and the number is below infinity. -/
theorem round_exact (hbits : n < 2 * f.unit) (hleast : f.leastExponent ≤ e)
    (htop : n * 2 ^ (e - f.leastExponent).toNat < f.steps f.infinity) :
    f.round n e false < f.infinity
      ∧ f.steps (f.round n e false) = n * 2 ^ (e - f.leastExponent).toNat := by
  -- it is enough that the sum under the minimum is worth that much
  suffices hsum : ∃ p, f.round n e false = min p f.infinity
      ∧ f.steps p = n * 2 ^ (e - f.leastExponent).toNat by
    obtain ⟨p, hround, hsteps⟩ := hsum
    have hlt : p < f.infinity := f.steps_strictMono.lt_iff_lt.1 (hsteps ▸ htop)
    rw [hround, min_eq_left hlt.le]
    exact ⟨hlt, hsteps⟩
  by_cases hpos : n = 0
  · subst hpos
    exact ⟨0, by rw [round, if_pos rfl, Nat.zero_min], by simp [steps]⟩
  have hself : 2 ^ Nat.log2 n ≤ n := Nat.log2_self_le hpos
  have hlog : Nat.log2 n ≤ f.fractionBits := by
    rw [← Nat.lt_succ_iff, Nat.log2_lt hpos, pow_succ, Nat.mul_comm]
    exact hbits
  obtain ⟨counting, hcounting⟩ : ∃ counting, counting = f.countingExponent n e := ⟨_, rfl⟩
  have hmax : counting = max (e + Nat.log2 n - f.fractionBits) f.leastExponent := hcounting
  refine ⟨n * 2 ^ (e - counting).toNat + (counting - f.leastExponent).toNat * f.unit, ?_, ?_⟩
  · rw [round, if_neg hpos]
    simp only [← hcounting]
    rw [if_pos (by omega)]
    rfl
  · rw [steps_add, Nat.mul_assoc, ← pow_add]
    · congr 2
      omega
    · calc n * 2 ^ (e - counting).toNat
          ≤ n * 2 ^ (f.fractionBits - Nat.log2 n) :=
            Nat.mul_le_mul_left _ (Nat.pow_le_pow_right two_pos (by omega))
        _ < 2 ^ (Nat.log2 n + 1) * 2 ^ (f.fractionBits - Nat.log2 n) :=
            Nat.mul_lt_mul_of_pos_right Nat.lt_log2_self (Nat.two_pow_pos _)
        _ = 2 * f.unit := by
            rw [← pow_add, show Nat.log2 n + 1 + (f.fractionBits - Nat.log2 n)
              = 1 + f.fractionBits by omega, pow_add, pow_one]
            rfl
    · by_cases hc : counting = f.leastExponent
      · exact .inl (by omega)
      · refine .inr ?_
        calc f.unit = 2 ^ Nat.log2 n * 2 ^ (f.fractionBits - Nat.log2 n) := by
              rw [← pow_add, Nat.add_sub_cancel' hlog]
              rfl
          _ ≤ n * 2 ^ (f.fractionBits - Nat.log2 n) := Nat.mul_le_mul_right _ hself
          _ = n * 2 ^ (e - counting).toNat := by
              rw [show (e - counting).toNat = f.fractionBits - Nat.log2 n by omega]

/-- The pattern of an exactly rounded number is worth that number. -/
theorem number?_read_round (hbits : n < 2 * f.unit) (hleast : f.leastExponent ≤ e)
    (htop : n * 2 ^ (e - f.leastExponent).toNat < f.steps f.infinity) (negative : Bool) :
    (f.read (f.round n e false)).number? negative = (Magnitude.finite n e).number? negative := by
  obtain ⟨hlt, hsteps⟩ := round_exact hbits hleast htop
  have hexponent : e = ((e - f.leastExponent).toNat : Int) + f.leastExponent := by omega
  rw [number?_read_of_lt hlt, hsteps, Magnitude.number?]
  conv_rhs => rw [hexponent, zpow_add₀ two_ne_zero, zpow_natCast]
  push_cast
  rw [mul_assoc]

end Format

/-! ### Single precision -/

namespace Single

variable {x y : Single} {v w : Extended} {i j : Int}

/-- The steps of an order key, with its sign. -/
def signedSteps (key : Int) : Int :=
  if key < 0 then -(Format.single.steps key.natAbs : Int) else Format.single.steps key.natAbs

/-- What an order key is worth. -/
def worth (key : Int) : Extended :=
  if key.natAbs < Format.single.infinity then
    ((signedSteps key * 2 ^ Format.single.leastExponent : ℚ) : WithTop ℚ)
  else if key < 0 then ⊥ else ⊤

theorem steps_zero : Format.single.steps 0 = 0 := rfl

theorem signedSteps_strictMono : StrictMono signedSteps := by
  intro i j hij
  rw [signedSteps, signedSteps]
  have hmono := Format.single.steps_strictMono
  have hzero := steps_zero
  split <;> split
  · have := hmono (show j.natAbs < i.natAbs by omega)
    omega
  · have := hmono (show 0 < i.natAbs by omega)
    omega
  · omega
  · have := hmono (show i.natAbs < j.natAbs by omega)
    omega

/-- Larger keys are worth more, up to the infinities at both ends. -/
theorem worth_strictMonoOn :
    StrictMonoOn worth {key | key.natAbs ≤ Format.single.infinity} := by
  intro i hi j hj hij
  change i.natAbs ≤ _ at hi
  change j.natAbs ≤ _ at hj
  rw [worth, worth]
  by_cases hfi : i.natAbs < Format.single.infinity
  · rw [if_pos hfi]
    by_cases hfj : j.natAbs < Format.single.infinity
    · rw [if_pos hfj, WithBot.coe_lt_coe, WithTop.coe_lt_coe]
      exact mul_lt_mul_of_pos_right (Int.cast_lt.2 (signedSteps_strictMono hij))
        (zpow_pos two_pos _)
    · rw [if_neg hfj, if_neg (by omega)]
      exact WithBot.coe_lt_coe.2 (WithTop.coe_lt_top _)
  · rw [if_neg hfi, if_pos (by omega)]
    by_cases hfj : j.natAbs < Format.single.infinity
    · rw [if_pos hfj]
      exact WithBot.bot_lt_coe _
    · rw [if_neg hfj, if_neg (by omega)]
      exact bot_lt_top

theorem natAbs_orderKey (x : Single) : x.orderKey.natAbs = x.pattern := by
  rw [orderKey]
  split <;> omega

theorem pattern_lt (x : Single) : x.pattern < Format.single.infinity + Format.single.unit :=
  Nat.mod_lt _ (by decide)

/-- A single that is a number is worth what its order key says. -/
theorem number?_of_le (hx : x.pattern ≤ Format.single.infinity) :
    x.number? = some (worth x.orderKey) := by
  rw [number?, magnitude, worth, natAbs_orderKey]
  rcases hx.lt_or_eq with hlt | heq
  · rw [Format.number?_read_of_lt hlt, if_pos hlt, signedSteps, natAbs_orderKey, orderKey,
      Extended.signed]
    congr 3
    by_cases hneg : x.isNegative
    · rw [if_pos hneg, if_pos hneg]
      by_cases hzero : x.pattern = 0
      · rw [hzero, steps_zero]
        simp
      · rw [if_pos (by omega)]
        push_cast
        rw [neg_mul]
    · rw [if_neg hneg, if_neg hneg, if_neg (by omega)]
      rfl
  · have hpos : 0 < Format.single.infinity := by decide
    rw [heq, Format.read_infinity, if_neg (lt_irrefl _), orderKey, heq, Magnitude.number?]
    by_cases hneg : x.isNegative
    · rw [if_pos hneg, if_pos hneg, if_pos (by omega)]
    · rw [if_neg hneg, if_neg hneg, if_neg (by omega)]

/-- What is worth something is a number. -/
theorem pattern_le_of_number? (hx : x.number? = some v) : x.pattern ≤ Format.single.infinity := by
  by_contra hgt
  rw [number?, magnitude, Format.read_of_gt (Nat.lt_of_not_le hgt) x.pattern_lt] at hx
  exact absurd hx (by simp [Magnitude.number?])

theorem isNan_eq_false_iff : x.isNan = false ↔ x.pattern ≤ Format.single.infinity := by
  rw [isNan, decide_eq_false_iff_not, not_lt]

/-- The numeric order is the order of what numbers are worth. -/
theorem compare?_eq_cmp (hx : x.number? = some v) (hy : y.number? = some w) :
    x.compare? y = some (cmp v w) := by
  have hpx := pattern_le_of_number? hx
  have hpy := pattern_le_of_number? hy
  obtain rfl := Option.some.inj ((number?_of_le hpx).symm.trans hx)
  obtain rfl := Option.some.inj ((number?_of_le hpy).symm.trans hy)
  rw [compare?, isNan_eq_false_iff.2 hpx, isNan_eq_false_iff.2 hpy,
    worth_strictMonoOn.cmp_map_eq _ _, cmp_eq_compare]
  · rfl
  · exact (natAbs_orderKey x).trans_le hpx
  · exact (natAbs_orderKey y).trans_le hpy

/-- A number put together from its sign and an exactly rounded magnitude. -/
theorem number?_round {n : Nat} {e : Int} (negative : Bool) (hbits : n < 2 * Format.single.unit)
    (hleast : Format.single.leastExponent ≤ e)
    (htop : n * 2 ^ (e - Format.single.leastExponent).toNat
      < Format.single.steps Format.single.infinity) :
    (round negative n e false).number? = (Magnitude.finite n e).number? negative := by
  have hsign : Format.single.infinity < Format.single.signBit := by decide
  obtain ⟨hlt, _⟩ := Format.round_exact hbits hleast htop
  obtain ⟨hp, hneg⟩ := pattern_ofParts negative (hlt.trans hsign)
  rw [round, number?, magnitude, hp, hneg, Format.number?_read_round hbits hleast htop]

/-- Small integers are held exactly. -/
theorem number?_ofInt (hi : i.natAbs < 2 ^ 16) :
    (ofInt i).number? = some (((i : ℚ) : WithTop ℚ) : Extended) := by
  have hunit : 2 ^ 16 ≤ 2 * Format.single.unit := by decide
  have hroom : 2 ^ 16 * 2 ^ ((0 : Int) - Format.single.leastExponent).toNat
      < Format.single.steps Format.single.infinity := by decide
  rw [ofInt, number?_round _ (hi.trans_le hunit) (by decide)
    ((Nat.mul_le_mul_right _ hi.le).trans_lt hroom), Magnitude.number?, Extended.signed, zpow_zero,
    mul_one]
  congr 3
  by_cases hneg : i < 0
  · rw [if_pos (decide_eq_true hneg), Nat.cast_natAbs, abs_of_neg hneg, Int.cast_neg, neg_neg]
  · rw [if_neg (by simpa using hneg), Nat.cast_natAbs, abs_of_nonneg (not_lt.1 hneg)]

end Single

/-! ### Half precision -/

namespace Half

theorem pattern_lt (x : Half) : x.pattern < Format.half.infinity + Format.half.unit :=
  Nat.mod_lt _ (by decide)

/-- The payload of a widened not-a-number with its quiet bit: a fraction, and not zero. -/
theorem quiet_payload_bounds {payload : Nat} (hp : payload < Format.half.unit) :
    0 < (payload * Nat.pow 2 fractionShift ||| Format.single.quietBit)
      ∧ (payload * Nat.pow 2 fractionShift ||| Format.single.quietBit) < Format.single.unit := by
  constructor
  · exact (show 0 < Format.single.quietBit by decide).trans_le Nat.right_le_or
  · refine Nat.or_lt_two_pow ?_ (by decide)
    exact Nat.mul_lt_mul_of_pos_right hp (by decide)

/-- Widening loses nothing. -/
theorem number?_widen (x : Half) : x.widen.number? = x.number? := by
  have hsign : Format.single.infinity + Format.single.unit = Format.single.signBit := by decide
  rw [widen, number?]
  cases hread : x.magnitude with
  | nan payload =>
    obtain ⟨hpos, hlt⟩ := quiet_payload_bounds (Format.payload_of_read_nan hread)
    obtain ⟨hp, _⟩ := Single.pattern_ofParts x.isNegative
      (hsign ▸ Nat.add_lt_add_left hlt Format.single.infinity)
    simp only
    rw [Single.number?, Single.magnitude, hp,
      Format.read_of_gt (Nat.lt_add_of_pos_right hpos) (Nat.add_lt_add_left hlt _),
      Magnitude.number?, Magnitude.number?]
  | infinite =>
    obtain ⟨hp, hneg⟩ := Single.pattern_ofParts x.isNegative
      (show Format.single.infinity < Format.single.signBit by decide)
    simp only
    rw [Single.infinity, Single.number?, Single.magnitude, hp, hneg, Format.read_infinity]
  | finite significand e =>
    obtain ⟨hfits, hleast, htop⟩ := Format.bounds_of_read_finite x.pattern_lt hread
    have hhalf : Format.half.leastExponent = -24 := by decide
    have hsingle : Format.single.leastExponent = -149 := by decide
    have htop' : Format.half.topExponent = 31 := by decide
    have hwide : 2 * Format.half.unit ≤ 2 * Format.single.unit := by decide
    have hroom : 2 * Format.half.unit * 2 ^ 156
        < Format.single.steps Format.single.infinity := by decide
    refine Single.number?_round _ (hfits.trans_le hwide) (by omega) (lt_of_le_of_lt ?_ hroom)
    exact Nat.mul_le_mul hfits.le (Nat.pow_le_pow_right two_pos (by omega))

end Half

end Numeric

end SwarmVm
