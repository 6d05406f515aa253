import SwarmVm.Proofs.Heap.Containers
import SwarmVm.Proofs.Numeric.Exactness

/-!
# The order of keys

`Heap.compare` decides which keys of a table are the same and which of two numbers is smaller. As a
test for equality it is an equivalence on every heap. As an order it is partial: strings are ordered
among themselves, tables not at all, and a not-a-number is less than whatever it is compared with.
On nil and the numbers proper it is the order of what they are worth, with nil below everything,
also where an integer meets a fraction. That is what makes it transitive there: integers and
fractions are both compared in single precision, and neither loses anything on the way.

## Main definitions

* `Value.isOrdered` — nil, an integer, or a fraction that is a number
* `Value.place?` — where such a value stands among the rationals and infinities, nil below them

## Main results

* `Value.order_eq_cmp` — ordered values compare as their places do
* `Heap.compare_orders_keys` — equality of keys and the order of numbers on any heap
-/

namespace SwarmVm

open Numeric

namespace Numeric

namespace Half

/-- What is not a not-a-number is worth something. -/
theorem exists_number? {x : Half} (hx : x.isNan = false) : ∃ v, x.number? = some v := by
  rw [isNan, decide_eq_false_iff_not, not_lt] at hx
  rw [number?, magnitude]
  rcases hx.lt_or_eq with hlt | heq
  · exact ⟨_, Format.number?_read_of_lt hlt _⟩
  · rw [heq, Format.read_infinity]
    exact ⟨_, rfl⟩

end Half

end Numeric

namespace Value

variable {v w : Value}

/-- Nil, an integer, or a fraction that is a number. -/
def isOrdered : Value → Bool
  | nil => true
  | int _ => true
  | float x => !x.isNan
  | _ => false

/-- What a number is worth, and nil below everything. -/
def place? : Value → Option (WithBot Extended)
  | nil => some ⊥
  | int i => some (((i.toInt : ℚ) : WithTop ℚ) : Extended)
  | float x => x.number?.map WithBot.some
  | _ => none

theorem exists_place? (hv : v.isOrdered = true) : ∃ x, v.place? = some x := by
  cases v with
  | nil => exact ⟨_, rfl⟩
  | int i => exact ⟨_, rfl⟩
  | float x =>
    obtain ⟨q, hq⟩ := Half.exists_number? (show x.isNan = false by simpa [isOrdered] using hv)
    exact ⟨q, by rw [place?, hq, Option.map_some]⟩
  | _ => simp [isOrdered] at hv

/-- Nothing but nil stands below everything. -/
theorem place?_eq_bot_iff {x : WithBot Extended} (hv : v.place? = some x) : x = ⊥ ↔ v = .nil := by
  cases v with
  | nil => simp [← Option.some.inj hv]
  | int i => simp [← Option.some.inj hv]
  | float y =>
    obtain ⟨q, -, rfl⟩ := Option.map_eq_some_iff.1 hv
    simp
  | _ => simp [place?] at hv

/-- What is compared in single precision is worth what the value is. -/
theorem number?_of_asSingle? {s : Single} (hs : v.asSingle? = some s) {x : WithBot Extended}
    (hx : v.place? = some x) : ∃ q, s.number? = some q ∧ x = WithBot.some q := by
  cases v with
  | int i =>
    obtain rfl := Option.some.inj hs
    obtain rfl := Option.some.inj hx
    exact ⟨_, Single.number?_ofInt (natAbs_toInt_lt i), rfl⟩
  | float y =>
    obtain rfl := Option.some.inj hs
    obtain ⟨q, hq, rfl⟩ := Option.map_eq_some_iff.1 hx
    exact ⟨q, (Half.number?_widen y).trans hq, rfl⟩
  | _ => simp [asSingle?] at hs

/-- Two numbers compare, in single precision, as their places do. -/
theorem compare?_asSingle? {s t : Single} (hs : v.asSingle? = some s) (ht : w.asSingle? = some t)
    {x y : WithBot Extended} (hx : v.place? = some x) (hy : w.place? = some y) :
    (s.compare? t).getD .lt = cmp x y := by
  obtain ⟨p, hp, rfl⟩ := number?_of_asSingle? hs hx
  obtain ⟨q, hq, rfl⟩ := number?_of_asSingle? ht hy
  rw [Single.compare?_eq_cmp hp hq, Option.getD_some]
  exact (WithBot.coe_strictMono.cmp_map_eq p q).symm

/-- Ordered values compare as their places do. -/
theorem order_eq_cmp {x y : WithBot Extended} (hx : v.place? = some x) (hy : w.place? = some y) :
    v.order w = cmp x y := by
  cases v with
  | nil =>
    obtain rfl := Option.some.inj hx
    cases w with
    | nil =>
      obtain rfl := Option.some.inj hy
      exact (cmp_self_eq_eq _).symm
    | int i =>
      obtain rfl := Option.some.inj hy
      exact ((cmp_eq_lt_iff _ _).2 (WithBot.bot_lt_coe _)).symm
    | float y =>
      obtain ⟨q, -, rfl⟩ := Option.map_eq_some_iff.1 hy
      exact ((cmp_eq_lt_iff _ _).2 (WithBot.bot_lt_coe _)).symm
    | _ => simp [place?] at hy
  | int i =>
    cases w with
    | nil =>
      obtain rfl := Option.some.inj hx
      obtain rfl := Option.some.inj hy
      exact ((cmp_eq_gt_iff _ _).2 (WithBot.bot_lt_coe _)).symm
    | int j =>
      obtain rfl := Option.some.inj hx
      obtain rfl := Option.some.inj hy
      rw [order, ← cmp_eq_compare]
      have hmono : StrictMono fun k : Int =>
          (WithBot.some ((((k : ℚ) : WithTop ℚ) : Extended)) : WithBot Extended) := fun a b hab =>
        WithBot.coe_lt_coe.2 (WithBot.coe_lt_coe.2 (WithTop.coe_lt_coe.2 (Int.cast_lt.2 hab)))
      exact (hmono.cmp_map_eq _ _).symm
    | float b => exact compare?_asSingle? rfl rfl hx hy
    | _ => simp [place?] at hy
  | float a =>
    cases w with
    | nil =>
      obtain ⟨q, -, rfl⟩ := Option.map_eq_some_iff.1 hx
      obtain rfl := Option.some.inj hy
      exact ((cmp_eq_gt_iff _ _).2 (WithBot.bot_lt_coe _)).symm
    | int j => exact compare?_asSingle? rfl rfl hx hy
    | float b => exact compare?_asSingle? rfl rfl hx hy
    | _ => simp [place?] at hy
  | _ => simp [place?] at hx

end Value

namespace Heap

variable {h : Heap} {a b c : Ref}

/-- Ordered objects compare as their places do. -/
theorem compare_eq_cmp {x y : WithBot Extended} (hx : (h.value a).place? = some x)
    (hy : (h.value b).place? = some y) : h.compare a b = cmp x y := by
  rw [Heap.compare]
  split
  · next he =>
    subst he
    obtain rfl := Option.some.inj (hx.symm.trans hy)
    exact (cmp_self_eq_eq x).symm
  · exact Value.order_eq_cmp hx hy

theorem isLE_compare_iff {x y : WithBot Extended} (hx : (h.value a).place? = some x)
    (hy : (h.value b).place? = some y) : (h.compare a b).isLE = true ↔ x ≤ y := by
  rw [compare_eq_cmp hx hy, Ordering.isLE_iff_ne_gt, cmp_eq_gt_iff, not_lt]

/-- The ordered objects of a heap. -/
def Ordered (h : Heap) : Type := {r : Ref // (h.value r).isOrdered = true}

/-- Objects with places are in a total preorder. -/
theorem transCmp_compare (h : Heap) : Std.TransCmp fun a b : h.Ordered => h.compare a.1 b.1 where
  eq_swap := by
    intro a b
    obtain ⟨x, hx⟩ := Value.exists_place? a.2
    obtain ⟨y, hy⟩ := Value.exists_place? b.2
    rw [compare_eq_cmp hx hy, compare_eq_cmp hy hx, cmp_swap]
  isLE_trans := by
    intro a b c hab hbc
    obtain ⟨x, hx⟩ := Value.exists_place? a.2
    obtain ⟨y, hy⟩ := Value.exists_place? b.2
    obtain ⟨z, hz⟩ := Value.exists_place? c.2
    exact (isLE_compare_iff hx hz).2
      (((isLE_compare_iff hx hy).1 hab).trans ((isLE_compare_iff hy hz).1 hbc))

/-- On every heap the equality of keys is an equivalence of all objects. Nil, the integers and the
fractions that are numbers are in a total preorder with nil first, and compare as they stand among
the rationals and infinities. -/
theorem compare_orders_keys (h : Heap) :
    (Equivalence fun a b => h.compare a b = .eq)
    ∧ (Std.TransCmp fun a b : h.Ordered => h.compare a.1 b.1)
    ∧ (∀ a b : h.Ordered, h.value a.1 = .nil →
        (h.compare a.1 b.1).isLE = true ∧ (h.compare a.1 b.1 = .eq ↔ h.value b.1 = .nil))
    ∧ ∀ a b : h.Ordered, ∃ x y, (h.value a.1).place? = some x ∧ (h.value b.1).place? = some y
        ∧ h.compare a.1 b.1 = cmp x y := by
  refine ⟨h.alike_equivalence, h.transCmp_compare, fun a b ha => ?_, fun a b => ?_⟩
  · obtain ⟨y, hy⟩ := Value.exists_place? b.2
    have hx : (h.value a.1).place? = some ⊥ := by rw [ha]; rfl
    refine ⟨(isLE_compare_iff hx hy).2 bot_le, ?_⟩
    rw [compare_eq_cmp hx hy, cmp_eq_eq_iff, eq_comm]
    exact Value.place?_eq_bot_iff hy
  · obtain ⟨x, hx⟩ := Value.exists_place? a.2
    obtain ⟨y, hy⟩ := Value.exists_place? b.2
    exact ⟨x, y, hx, hy, compare_eq_cmp hx hy⟩

/-- Nil, an integer, the fraction equal to it, both zeros, and a not-a-number. -/
def mixedKeys : Heap :=
  [Value.nil, .int 1, .float ⟨0x3C00⟩, .float ⟨0⟩, .float ⟨0x8000⟩, .float ⟨0x7E00⟩].foldl
    (fun h v => (Request.allocValue v).perform h) (make 80)

theorem compare_orders_mixedKeys :
    mixedKeys.value 0 = .nil ∧ (mixedKeys.value 2).isOrdered = true
    ∧ (mixedKeys.compare 0 2).isLE = true ∧ mixedKeys.compare 0 2 ≠ .eq := by
  have hnil : mixedKeys.value 0 = .nil := by decide +kernel
  have h₀ : (mixedKeys.value 0).isOrdered = true := by decide +kernel
  have h₂ : (mixedKeys.value 2).isOrdered = true := by decide +kernel
  have hfraction : mixedKeys.value 2 ≠ .nil := by decide +kernel
  obtain ⟨hle, heq⟩ := (compare_orders_keys mixedKeys).2.2.1 ⟨0, h₀⟩ ⟨2, h₂⟩ hnil
  exact ⟨hnil, h₂, hle, fun he => hfraction (heq.1 he)⟩

/-- The zeros are one key, the integer and the fraction are one key, and the not-a-number is a key
of its own. -/
example : mixedKeys.compare 1 2 = .eq ∧ mixedKeys.compare 3 4 = .eq
    ∧ mixedKeys.compare 5 5 = .eq ∧ mixedKeys.compare 5 2 = .lt
    ∧ mixedKeys.compare 2 5 = .lt := by decide +kernel

end Heap

end SwarmVm
