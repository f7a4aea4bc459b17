import BinCodec.Float.TotalOrder
import Mathlib.Algebra.Order.Field.Power
import Mathlib.Data.Rat.Cast.Order
import Mathlib.Tactic.Ring

/-!
# The total order by meaning

The standard defines its total order on what patterns denote: a negative pattern is below a
positive one, numbers are ordered by value, infinity is above all numbers and a NaN above infinity,
NaNs by their payload, and all of this is reversed below zero. `Layout.totalOrder` says so.
The order of places on a line (`totalOrderPlace`) is this order, in every format
(`compare_totalOrderPlace`).
-/

namespace BinCodec

/-- The rational number `significand * 2 ^ scale`. -/
def dyadic (significand : Nat) (scale : Int) : ℚ := significand * 2 ^ scale

theorem dyadic_rescale (n : Nat) {e f : Int} (scale : e ≤ f) :
    dyadic n f = dyadic (n * 2 ^ (f - e).toNat) e := by
  have power : (2 : ℚ) ^ f = 2 ^ (f - e).toNat * 2 ^ e := by
    rw [← zpow_natCast, ← zpow_add₀ two_ne_zero, Int.toNat_of_nonneg (by omega)]
    congr 1
    omega
  rw [dyadic, dyadic, power]
  push_cast
  ring

namespace Layout

/-- The order of what patterns denote, their signs apart. -/
def Magnitude.compare : Magnitude → Magnitude → Ordering
  | .finite m e, .finite n f => cmp (dyadic m e) (dyadic n f)
  | .finite _ _, .infinite | .finite _ _, .nan _ | .infinite, .nan _ => .lt
  | .infinite, .finite _ _ | .nan _, .finite _ _ | .nan _, .infinite => .gt
  | .infinite, .infinite => .eq
  | .nan p, .nan q => Ord.compare p q

/-- The total order of the patterns of a format. -/
def totalOrder (l : Layout) (a b : Nat) : Ordering :=
  match l.negative a, l.negative b with
  | true, false => .lt
  | false, true => .gt
  | false, false => (l.magnitude a).compare (l.magnitude b)
  | true, true => (l.magnitude b).compare (l.magnitude a)

/-! ## Magnitudes -/

theorem Magnitude.compare_swap (m n : Magnitude) : m.compare n = (n.compare m).swap := by
  cases m with
  | finite m e =>
    cases n with
    | finite n f => exact (cmp_swap (dyadic n f) (dyadic m e)).symm
    | _ => rfl
  | infinite => cases n <;> rfl
  | nan p =>
    cases n with
    | nan q => exact (Nat.compare_swap q p).symm
    | _ => rfl

theorem Magnitude.compare_self (m : Magnitude) : m.compare m = .eq := by
  cases m with
  | finite m e => exact cmp_self_eq_eq (dyadic m e)
  | infinite => rfl
  | nan p => exact Nat.compare_eq_eq.mpr rfl

theorem Magnitude.compare_of_lt {m n : Nat} {e f : Int} (scale : e ≤ f)
    (h : m < n * 2 ^ (f - e).toNat) : (Magnitude.finite m e).compare (.finite n f) = .lt := by
  rw [Magnitude.compare, dyadic_rescale n scale, cmp_eq_lt_iff]
  exact mul_lt_mul_of_pos_right (by exact_mod_cast h) (zpow_pos two_pos e)

/-! ## Patterns -/

variable (l : Layout) {a b : Nat}

def unsigned (bits : Nat) : Nat := bits % 2 ^ (l.fractionBits + l.exponentBits)

/-- The fields of a pattern lie one behind the other. -/
theorem unsigned_eq (bits : Nat) :
    l.unsigned bits = l.fraction bits + 2 ^ l.fractionBits * l.exponent bits := by
  rw [unsigned, Nat.pow_add, Nat.mod_mul, fraction, exponent]

theorem fraction_lt (bits : Nat) : l.fraction bits < 2 ^ l.fractionBits :=
  Nat.mod_lt _ (Nat.two_pow_pos _)

theorem exponent_le (bits : Nat) : l.exponent bits ≤ l.topExponent := by
  have := Nat.mod_lt (bits / 2 ^ l.fractionBits) (Nat.two_pow_pos l.exponentBits)
  rw [exponent, topExponent]
  omega

theorem fields_of_unsigned_lt (h : l.unsigned a < l.unsigned b) :
    l.exponent a < l.exponent b ∨ l.exponent a = l.exponent b ∧ l.fraction a < l.fraction b := by
  rw [unsigned_eq, unsigned_eq] at h
  rcases Nat.lt_trichotomy (l.exponent a) (l.exponent b) with lt | eq | gt
  · exact .inl lt
  · rw [eq] at h
    exact .inr ⟨eq, by omega⟩
  · have step := Nat.mul_le_mul_left (2 ^ l.fractionBits) (Nat.succ_le_of_lt gt)
    rw [Nat.mul_succ] at step
    have := l.fraction_lt b
    omega

/-- The significand of a number, with the implicit leading one. -/
def significand (bits : Nat) : Nat :=
  if l.exponent bits = 0 then l.fraction bits else 2 ^ l.fractionBits + l.fraction bits

/-- The power of two that the significand of a number counts; numbers without the implicit
leading one are on the scale of the smallest ones with it. -/
def scale (bits : Nat) : Int :=
  (max (l.exponent bits) 1 : Nat) - (l.bias + l.fractionBits : Nat)

theorem magnitude_of_number (h : l.exponent a ≠ l.topExponent) :
    l.magnitude a = .finite (l.significand a) (l.scale a) := by
  unfold magnitude significand scale
  rw [if_neg h]
  by_cases subnormal : l.exponent a = 0
  · simp [subnormal]
  · have least : max (l.exponent a) 1 = l.exponent a := by omega
    simp only [if_neg subnormal, least]

theorem compare_numbers (ha : l.exponent a ≠ l.topExponent) (hb : l.exponent b ≠ l.topExponent)
    (h : l.unsigned a < l.unsigned b) : (l.magnitude a).compare (l.magnitude b) = .lt := by
  rw [magnitude_of_number l ha, magnitude_of_number l hb]
  have fractionA := l.fraction_lt a
  have fields := l.fields_of_unsigned_lt h
  have scales : l.scale b - l.scale a =
      (max (l.exponent b) 1 : Nat) - (max (l.exponent a) 1 : Nat) := by
    unfold scale
    omega
  apply Magnitude.compare_of_lt (by omega)
  have bound : l.significand a < 2 * 2 ^ l.fractionBits := by
    unfold significand
    split_ifs <;> omega
  by_cases same : max (l.exponent a) 1 = max (l.exponent b) 1
  · -- On one scale the significands are in the order of the patterns.
    have level : (l.scale b - l.scale a).toNat = 0 := by omega
    rw [level, Nat.pow_zero, Nat.mul_one]
    unfold significand
    split_ifs <;> omega
  · obtain ⟨k, above⟩ : ∃ k, (l.scale b - l.scale a).toNat = k + 1 :=
      ⟨_, (Nat.succ_pred_eq_of_ne_zero (by omega)).symm⟩
    have normal : l.significand b = 2 ^ l.fractionBits + l.fraction b := by
      rw [significand, if_neg (by omega)]
    have twice : 2 ≤ 2 ^ (k + 1) := by
      rw [Nat.pow_succ]
      have := Nat.two_pow_pos k
      omega
    calc
      l.significand a < 2 ^ l.fractionBits * 2 := by omega
      _ ≤ l.significand b * 2 ^ (k + 1) := Nat.mul_le_mul (by omega) twice
      _ = _ := by rw [above]

theorem magnitude_of_top (h : l.exponent a = l.topExponent) :
    l.magnitude a = if l.fraction a = 0 then .infinite else .nan (l.fraction a) := by
  simp only [magnitude, if_pos h]

theorem compare_of_unsigned_lt (h : l.unsigned a < l.unsigned b) :
    (l.magnitude a).compare (l.magnitude b) = .lt := by
  have topA := l.exponent_le a
  have topB := l.exponent_le b
  have fields := l.fields_of_unsigned_lt h
  by_cases hb : l.exponent b = l.topExponent
  · rw [magnitude_of_top l hb]
    by_cases ha : l.exponent a = l.topExponent
    · rw [magnitude_of_top l ha, if_neg (by omega : l.fraction b ≠ 0)]
      split_ifs
      · rfl
      · exact Nat.compare_eq_lt.mpr (by omega)
    · rw [magnitude_of_number l ha]
      split_ifs <;> rfl
  · exact l.compare_numbers (by omega) hb h

theorem magnitude_of_unsigned_eq (h : l.unsigned a = l.unsigned b) :
    l.magnitude a = l.magnitude b := by
  have exponents : l.exponent a = l.exponent b := by
    have field (bits : Nat) : l.exponent bits = l.unsigned bits / 2 ^ l.fractionBits := by
      rw [unsigned_eq, Nat.add_mul_div_left _ _ (Nat.two_pow_pos _),
        Nat.div_eq_of_lt (l.fraction_lt bits), Nat.zero_add]
    rw [field, field, h]
  have fractions : l.fraction a = l.fraction b := by
    rw [unsigned_eq, unsigned_eq, exponents] at h
    omega
  simp only [magnitude, exponents, fractions]

/-- Magnitudes are in the order of the patterns without their signs. -/
theorem compare_magnitude :
    (l.magnitude a).compare (l.magnitude b) = Ord.compare (l.unsigned a) (l.unsigned b) := by
  rcases Nat.lt_trichotomy (l.unsigned a) (l.unsigned b) with lt | eq | gt
  · rw [l.compare_of_unsigned_lt lt, Nat.compare_eq_lt.mpr lt]
  · rw [l.magnitude_of_unsigned_eq eq, Magnitude.compare_self, Nat.compare_eq_eq.mpr eq]
  · rw [Magnitude.compare_swap, l.compare_of_unsigned_lt gt, Nat.compare_eq_gt.mpr gt]
    rfl

/-! ## Signs -/

def width : Nat := 1 + l.exponentBits + l.fractionBits

theorem place_eq (h : a < 2 ^ l.width) :
    totalOrderPlace l.width a =
      if l.negative a then -1 - (l.unsigned a : Int) else l.unsigned a := by
  have sign : l.width - 1 = l.fractionBits + l.exponentBits := by
    unfold width
    omega
  have double : 2 ^ l.width = 2 * 2 ^ (l.fractionBits + l.exponentBits) := by
    rw [← Nat.pow_succ', width]
    congr 1
    omega
  have power : (2 : Int) ^ (l.fractionBits + l.exponentBits) =
      ((2 ^ (l.fractionBits + l.exponentBits) : Nat) : Int) := by simp
  have parts := Nat.mod_add_div a (2 ^ (l.fractionBits + l.exponentBits))
  unfold totalOrderPlace negative unsigned
  rw [sign, power]
  by_cases low : a < 2 ^ (l.fractionBits + l.exponentBits)
  · simp [low, Nat.div_eq_of_lt low, Nat.mod_eq_of_lt low]
  · have one : a / 2 ^ (l.fractionBits + l.exponentBits) = 1 :=
      Nat.div_eq_of_lt_le (by omega) (by omega)
    rw [one] at parts ⊢
    rw [if_neg low, if_pos (by rfl)]
    omega

theorem compare_totalOrderPlace (ha : a < 2 ^ l.width) (hb : b < 2 ^ l.width) :
    Ord.compare (totalOrderPlace l.width a) (totalOrderPlace l.width b) = l.totalOrder a b := by
  rw [place_eq l ha, place_eq l hb]
  unfold totalOrder
  have upwards : StrictMono fun u : Nat => (u : Int) := fun _ _ lt => by simpa using lt
  have downwards : StrictAnti fun u : Nat => -1 - (u : Int) := fun _ _ lt => by simpa using lt
  simp only [compare_magnitude]
  cases l.negative a <;> cases l.negative b <;>
    simp only [Bool.false_eq_true, if_true, if_false]
  case false.false =>
    rw [← cmp_eq_compare, ← cmp_eq_compare]
    exact upwards.cmp_map_eq _ _
  case true.true =>
    rw [← cmp_eq_compare, ← cmp_eq_compare]
    exact downwards.cmp_map_eq _ _
  all_goals simp only [compare_lt_iff_lt, compare_gt_iff_gt]; omega

end Layout

theorem Binary64.compare_place (x y : Binary64) :
    Ord.compare x.place y.place = Layout.double.totalOrder x.bits.toNat y.bits.toNat :=
  Layout.double.compare_totalOrderPlace x.bits.toNat_lt y.bits.toNat_lt

theorem Binary32.compare_place (x y : Binary32) :
    Ord.compare x.place y.place = Layout.single.totalOrder x.bits.toNat y.bits.toNat :=
  Layout.single.compare_totalOrderPlace x.bits.toNat_lt y.bits.toNat_lt

end BinCodec
