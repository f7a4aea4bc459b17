import BinCodec.Proofs.Widening
import Mathlib.Data.Rat.Floor

/-!
# Numeric views

The numeric view of a value is a 64-bit or a 32-bit integer. A float is truncated straight to
either width: what it denotes loses its fraction and is brought into the range
(`Magnitude.saturate_eq`). Any other value has a 64-bit integer, whose low bits are the 32-bit
one. The two ways agree where the 64-bit integer fits 32 bits: bringing a number into the narrow
range has the same result if it is brought into the wide one first (`saturated_narrow`).
-/

namespace BinCodec

/-! ## Saturation -/

/-- A number without its fraction. -/
def towardZero (q : ℚ) : Int := if 0 ≤ q then ⌊q⌋ else ⌈q⌉

/-- The integer of the range `low` to `high` that is closest to a number without its fraction. -/
def saturated (low high : Int) (a : Extended) : Int :=
  a.recBotCoe low fun b => b.recTopCoe high fun q => max low (min high (towardZero q))

theorem towardZero_neg (q : ℚ) : towardZero (-q) = -towardZero q := by
  unfold towardZero
  rcases lt_trichotomy q 0 with lt | rfl | gt
  · rw [if_pos (by linarith), if_neg (by linarith), Int.floor_neg]
  · simp
  · rw [if_neg (by linarith), if_pos gt.le, Int.ceil_neg]

theorem towardZero_le_towardZero {p q : ℚ} (le : p ≤ q) : towardZero p ≤ towardZero q := by
  unfold towardZero
  split_ifs with hp hq hq
  · exact Int.floor_le_floor le
  · exact absurd (hp.trans le) hq
  · exact (Int.ceil_le.mpr (by simpa using (not_le.mp hp).le)).trans (Int.floor_nonneg.mpr hq)
  · exact Int.ceil_le_ceil le

section Range

variable {low high : Int}

@[simp] theorem saturated_bot : saturated low high ⊥ = low := rfl

@[simp] theorem saturated_top : saturated low high ⊤ = high := rfl

@[simp] theorem saturated_number (q : ℚ) :
    saturated low high (q : WithTop ℚ) = max low (min high (towardZero q)) := rfl

theorem saturated_mem (h : low ≤ high) (a : Extended) :
    low ≤ saturated low high a ∧ saturated low high a ≤ high := by
  induction a using WithBot.recBotCoe with
  | bot => simpa using h
  | coe b =>
    induction b using WithTop.recTopCoe with
    | top => simpa using h
    | coe q => simpa using h

theorem saturated_le_saturated (h : low ≤ high) {a b : Extended} (le : a ≤ b) :
    saturated low high a ≤ saturated low high b := by
  have mono : Monotone (saturated low high) := by
    refine WithBot.monotone_iff.mpr ⟨WithTop.monotone_iff.mpr ⟨?_, ?_⟩, ?_⟩
    · intro p q le
      exact max_le_max_left _ (min_le_min_left _ (towardZero_le_towardZero le))
    · exact fun q => (saturated_mem h _).2
    · exact fun b => (saturated_mem h _).1
  exact mono le

/-- A number may be brought into a wider range first. -/
theorem saturated_narrow {low' high' : Int} (lower : low' ≤ low) (upper : high ≤ high')
    (h : low ≤ high) (a : Extended) :
    saturated low high a = max low (min high (saturated low' high' a)) := by
  induction a using WithBot.recBotCoe with
  | bot =>
    rw [saturated_bot, saturated_bot]
    omega
  | coe b =>
    induction b using WithTop.recTopCoe with
    | top =>
      rw [WithBot.coe_top, saturated_top, saturated_top]
      omega
    | coe q =>
      rw [saturated_number, saturated_number]
      omega

end Range

/-! ## Truncation -/

theorem truncateMagnitude_eq (significand : Nat) (scale : Int) :
    (truncateMagnitude significand scale : Int) = towardZero (dyadic significand scale) := by
  have nonneg : 0 ≤ dyadic significand scale := by
    unfold dyadic
    positivity
  rw [towardZero, if_pos nonneg, dyadic]
  cases scale with
  | ofNat k =>
    rw [truncateMagnitude, Int.ofNat_eq_natCast, zpow_natCast]
    exact_mod_cast (Int.floor_natCast (R := ℚ) (significand * 2 ^ k)).symm
  | negSucc k =>
    have quotient := Rat.floor_natCast_div_natCast significand (2 ^ (k + 1))
    rw [truncateMagnitude, zpow_negSucc, ← div_eq_mul_inv]
    exact_mod_cast quotient.symm

theorem clamp_eq {low high : Int} (h : low ≤ high) (n : Int) :
    clamp low high n = max low (min high n) := by
  unfold clamp
  split_ifs <;> omega

/-- A float is truncated to the integer of the range closest to what it denotes without its
fraction, and a NaN to zero. -/
theorem Layout.Magnitude.saturate_eq (m : Magnitude) (negative : Bool) {low high : Int}
    (h : low ≤ high) :
    m.saturate negative low high = (m.value? negative).elim 0 (saturated low high) := by
  cases m with
  | nan => rfl
  | infinite => cases negative <;> rfl
  | finite significand scale =>
    rw [saturate, clamp_eq h, truncateMagnitude_eq]
    cases negative with
    | false => rfl
    | true =>
      change max low (min high (-towardZero _)) = max low (min high (towardZero (-_)))
      rw [towardZero_neg]

theorem Layout.Magnitude.saturate_mem (m : Magnitude) (negative : Bool) {low high : Int}
    (lower : low ≤ 0) (upper : 0 ≤ high) :
    low ≤ m.saturate negative low high ∧ m.saturate negative low high ≤ high := by
  have range : low ≤ high := lower.trans upper
  rw [saturate_eq m negative range]
  cases m.value? negative with
  | none => exact ⟨lower, upper⟩
  | some a => exact saturated_mem range a

theorem Layout.Magnitude.toInt_saturate64 (m : Magnitude) (negative : Bool) :
    (Int64.ofInt (m.saturate negative (-2 ^ 63) (2 ^ 63 - 1))).toInt =
      (m.value? negative).elim 0 (saturated (-2 ^ 63) (2 ^ 63 - 1)) := by
  obtain ⟨lower, upper⟩ := m.saturate_mem negative (show -2 ^ 63 ≤ 0 by decide)
    (show 0 ≤ 2 ^ 63 - 1 by decide)
  rw [Int64.toInt_ofInt_of_le lower (by omega), m.saturate_eq negative (by decide)]

theorem Layout.Magnitude.toInt_saturate32 (m : Magnitude) (negative : Bool) :
    (Int32.ofInt (m.saturate negative (-2 ^ 31) (2 ^ 31 - 1))).toInt =
      (m.value? negative).elim 0 (saturated (-2 ^ 31) (2 ^ 31 - 1)) := by
  obtain ⟨lower, upper⟩ := m.saturate_mem negative (show -2 ^ 31 ≤ 0 by decide)
    (show 0 ≤ 2 ^ 31 - 1 by decide)
  rw [Int32.toInt_ofInt_of_le lower (by omega), m.saturate_eq negative (by decide)]

/-! ## Values -/

namespace Value

/-- What a float denotes, a NaN being a float that denotes nothing. -/
def denoted? : Value → Option (Option Extended)
  | double x => some x.value?
  | float x => some x.value?
  | _ => none

variable {v : Value}

theorem toLong_of_denoted {a : Option Extended} (h : v.denoted? = some a) :
    v.toLong.toInt = a.elim 0 (saturated (-2 ^ 63) (2 ^ 63 - 1)) := by
  cases v with
  | double | float =>
    cases h
    exact Layout.Magnitude.toInt_saturate64 _ _
  | _ => cases h

theorem toInt_of_denoted {a : Option Extended} (h : v.denoted? = some a) :
    v.toInt.toInt = a.elim 0 (saturated (-2 ^ 31) (2 ^ 31 - 1)) := by
  cases v with
  | double | float =>
    cases h
    exact Layout.Magnitude.toInt_saturate32 _ _
  | _ => cases h

theorem toInt_of_not_denoted (h : v.denoted? = none) :
    v.toInt.toInt = v.toLong.toInt.bmod (2 ^ 32) := by
  cases v with
  | double | float => cases h
  | _ => exact Int64.toInt_toInt32 _

theorem coerced_widen (x : Binary32) : (Value.float x).toLong = (Value.double x.widen).toLong ∧
    (Value.float x).toInt = (Value.double x.widen).toInt := by
  have same : (Value.double x.widen).denoted? = some x.value? := congrArg some x.value?_widen
  refine ⟨Int64.toInt_inj.mp ?_, Int32.toInt_inj.mp ?_⟩
  · rw [toLong_of_denoted same, toLong_of_denoted (v := .float x) rfl]
  · rw [toInt_of_denoted same, toInt_of_denoted (v := .float x) rfl]

theorem coerced_mono {w : Value} {a b : Extended} (hv : v.denoted? = some (some a))
    (hw : w.denoted? = some (some b)) (le : a ≤ b) : v.toLong ≤ w.toLong ∧ v.toInt ≤ w.toInt := by
  rw [Int64.le_iff_toInt_le, Int32.le_iff_toInt_le, toLong_of_denoted hv, toLong_of_denoted hw,
    toInt_of_denoted hv, toInt_of_denoted hw]
  exact ⟨saturated_le_saturated (by decide) le, saturated_le_saturated (by decide) le⟩

theorem toInt_of_fits (lower : -2 ^ 31 ≤ v.toLong.toInt) (upper : v.toLong.toInt < 2 ^ 31) :
    v.toInt.toInt = v.toLong.toInt := by
  cases h : v.denoted? with
  | none =>
    rw [toInt_of_not_denoted h]
    exact Int.bmod_eq_of_le (by omega) (by omega)
  | some a =>
    rw [toInt_of_denoted h]
    rw [toLong_of_denoted h] at lower upper ⊢
    cases a with
    | none => rw [Option.elim_none, Option.elim_none]
    | some a =>
      have narrow := saturated_narrow (show -2 ^ 63 ≤ -2 ^ 31 by decide)
        (show 2 ^ 31 - 1 ≤ 2 ^ 63 - 1 by decide) (by decide) a
      rw [Option.elim_some] at lower upper ⊢
      rw [Option.elim_some, narrow]
      omega

/-- Floats are truncated towards zero and brought into the range of either width, NaNs becoming
zero, in the order of what they denote; a 32-bit float has the integers of the 64-bit float it
widens to. Other values have the low bits of their 64-bit integer. Whatever the value, the two
integers are the same number if that fits 32 bits. -/
theorem coercion_saturates (v : Value) :
    (∀ a, v.denoted? = some a →
      v.toLong.toInt = a.elim 0 (saturated (-2 ^ 63) (2 ^ 63 - 1)) ∧
      v.toInt.toInt = a.elim 0 (saturated (-2 ^ 31) (2 ^ 31 - 1))) ∧
    (∀ x, v = .float x →
      v.toLong = (Value.double x.widen).toLong ∧ v.toInt = (Value.double x.widen).toInt) ∧
    (∀ (w : Value) (a b : Extended), v.denoted? = some (some a) → w.denoted? = some (some b) →
      a ≤ b → v.toLong ≤ w.toLong ∧ v.toInt ≤ w.toInt) ∧
    (v.denoted? = none → v.toInt.toInt = v.toLong.toInt.bmod (2 ^ 32)) ∧
    (-2 ^ 31 ≤ v.toLong.toInt → v.toLong.toInt < 2 ^ 31 → v.toInt.toInt = v.toLong.toInt) := by
  refine ⟨fun a h => ⟨toLong_of_denoted h, toInt_of_denoted h⟩, ?_,
    fun w a b hv hw le => coerced_mono hv hw le, toInt_of_not_denoted, toInt_of_fits⟩
  rintro x rfl
  exact coerced_widen x

/-- Two and a half below zero, an infinity, and the first number above the 32-bit integers as a
float and as an integer. -/
theorem coercion_saturates_limits :
    (Value.float ⟨0xc0200000⟩).toInt.toInt = -2 ∧
      (Value.double ⟨0x7ff0000000000000⟩).toInt.toInt = 2 ^ 31 - 1 ∧
      (Value.float ⟨0x4f000000⟩).toInt = (Value.double ⟨0x41e0000000000000⟩).toInt ∧
      (Value.long 0x80000000).toInt.toInt = -2 ^ 31 := by
  have truncated : (Value.float ⟨0xc0200000⟩).toLong.toInt = -2 := by decide
  have infinite : (Value.double ⟨0x7ff0000000000000⟩).denoted? = some (some ⊤) := by decide
  have widened : (⟨0x4f000000⟩ : Binary32).widen = ⟨0x41e0000000000000⟩ := by decide
  obtain ⟨-, -, -, -, fits⟩ := coercion_saturates (.float ⟨0xc0200000⟩)
  obtain ⟨saturates, -⟩ := coercion_saturates (.double ⟨0x7ff0000000000000⟩)
  obtain ⟨-, float, -⟩ := coercion_saturates (.float ⟨0x4f000000⟩)
  obtain ⟨-, -, -, integer, -⟩ := coercion_saturates (.long 0x80000000)
  refine ⟨?_, (saturates _ infinite).2, ?_, integer rfl⟩
  · rw [truncated] at fits
    exact fits (by decide) (by decide)
  · rw [← widened]
    exact (float _ rfl).2

end Value

end BinCodec
