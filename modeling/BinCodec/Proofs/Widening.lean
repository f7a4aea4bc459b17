import BinCodec.Proofs.FlatReading
import BinCodec.Proofs.FloatOrder
import BinCodec.Proofs.ServerOrder
import Mathlib.Order.WithBot

/-!
# Widening

A 32-bit float is sent, handed to scripts and compared as a map key in its 64-bit widening. A
pattern denotes a rational number or an infinity, and a NaN nothing (`Magnitude.value?`). Widening
keeps the sign and what is denoted (`Binary32.value?_widen`): the small numbers of the narrow format
become normal numbers of the wide one, and none is rounded. So the total order of widened numbers
is that of the numbers themselves, and different numbers widen differently.
-/

namespace BinCodec

/-- The rational numbers and the two infinities. -/
abbrev Extended := WithBot (WithTop ℚ)

namespace Layout

/-! ## What patterns denote -/

/-- What a magnitude denotes under a sign. A NaN denotes nothing. -/
def Magnitude.value? (negative : Bool) : Magnitude → Option Extended
  | .finite m e => some ((if negative then -dyadic m e else dyadic m e : ℚ) : WithTop ℚ)
  | .infinite => some (if negative then ⊥ else ⊤)
  | .nan _ => none

theorem Magnitude.compare_eq_cmp {m n : Magnitude} {a b : Extended} (hm : m.value? false = some a)
    (hn : n.value? false = some b) : m.compare n = cmp a b := by
  have embedded : StrictMono fun q : ℚ => ((q : WithTop ℚ) : Extended) :=
    WithBot.coe_strictMono.comp WithTop.coe_strictMono
  have below (q : ℚ) : ((q : WithTop ℚ) : Extended) < ⊤ :=
    WithBot.coe_lt_coe.mpr (WithTop.coe_lt_top q)
  cases m with
  | nan => cases hm
  | finite m e =>
    cases hm
    cases n with
    | nan => cases hn
    | finite n f =>
      cases hn
      exact (embedded.cmp_map_eq (dyadic m e) (dyadic n f)).symm
    | infinite =>
      cases hn
      exact ((cmp_eq_lt_iff _ _).mpr (below (dyadic m e))).symm
  | infinite =>
    cases hm
    cases n with
    | nan => cases hn
    | finite n f =>
      cases hn
      exact ((cmp_eq_gt_iff _ _).mpr (below (dyadic n f))).symm
    | infinite =>
      cases hn
      exact (cmp_self_eq_eq _).symm

theorem Magnitude.exists_value {m : Magnitude} {s : Bool} (h : m.value? s ≠ none) (t : Bool) :
    ∃ a, m.value? t = some a := by
  cases m with
  | nan => exact absurd rfl h
  | finite m e => exact ⟨_, rfl⟩
  | infinite => exact ⟨_, rfl⟩

/-! ## Fields put together -/

section Join

variable (l : Layout) (s : Bool) {e f : Nat}

theorem fraction_join (hf : f < 2 ^ l.fractionBits) : l.fraction (l.join s e f) = f := by
  rw [fraction, join, Nat.mul_add_mod_self_right, Nat.mod_eq_of_lt hf]

theorem exponent_join (he : e < 2 ^ l.exponentBits) (hf : f < 2 ^ l.fractionBits) :
    l.exponent (l.join s e f) = e := by
  rw [exponent, join, Nat.mul_comm, Nat.mul_add_div (Nat.two_pow_pos _), Nat.div_eq_of_lt hf,
    Nat.add_zero, Nat.mul_add_mod_self_right, Nat.mod_eq_of_lt he]

theorem negative_join (he : e < 2 ^ l.exponentBits) (hf : f < 2 ^ l.fractionBits) :
    l.negative (l.join s e f) = s := by
  rw [negative, join, Nat.pow_add, ← Nat.div_div_eq_div_mul, Nat.mul_comm (_ + e),
    Nat.mul_add_div (Nat.two_pow_pos _), Nat.div_eq_of_lt hf, Nat.add_zero, Nat.mul_comm s.toNat,
    Nat.mul_add_div (Nat.two_pow_pos _), Nat.div_eq_of_lt he]
  cases s <;> rfl

theorem join_lt (he : e < 2 ^ l.exponentBits) (hf : f < 2 ^ l.fractionBits) :
    l.join s e f < 2 ^ l.width := by
  have high : s.toNat * 2 ^ l.exponentBits + e + 1 ≤ 2 ^ (1 + l.exponentBits) := by
    rw [Nat.pow_add]
    cases s <;> simp <;> omega
  calc
    l.join s e f < (s.toNat * 2 ^ l.exponentBits + e + 1) * 2 ^ l.fractionBits := by
      rw [join, Nat.succ_mul]
      omega
    _ ≤ 2 ^ (1 + l.exponentBits) * 2 ^ l.fractionBits := Nat.mul_le_mul_right _ high
    _ = 2 ^ l.width := (Nat.pow_add 2 _ _).symm

theorem magnitude_join (he : e < 2 ^ l.exponentBits) (hf : f < 2 ^ l.fractionBits)
    (number : e ≠ l.topExponent) (normal : e ≠ 0) :
    l.magnitude (l.join s e f) =
      .finite (2 ^ l.fractionBits + f) (e - (l.bias + l.fractionBits : Nat)) := by
  simp only [magnitude, exponent_join l s he hf, fraction_join l s hf, if_neg number, if_neg normal]

end Join

/-! ## Widening -/

/-- A format whose numbers, the smallest included, are normal numbers of the 64-bit format. -/
structure Narrow (l : Layout) : Prop where
  precision : l.fractionBits ≤ 52
  smallest : l.bias + l.fractionBits ≤ 1023
  largest : l.topExponent ≤ l.bias + 1024

theorem narrow_single : single.Narrow := by
  constructor <;> decide

theorem dyadic_normalize {m : Nat} (nonzero : m ≠ 0) (lead : m.log2 ≤ 52) (e : Int) :
    dyadic (2 ^ 52 + (m - 2 ^ m.log2) * 2 ^ (52 - m.log2)) (m.log2 + e - 52) = dyadic m e := by
  have leading := Nat.log2_self_le nonzero
  have aligned : 2 ^ 52 + (m - 2 ^ m.log2) * 2 ^ (52 - m.log2) = m * 2 ^ (52 - m.log2) := by
    rw [Nat.sub_mul, ← Nat.pow_add, Nat.add_sub_cancel' lead]
    have := Nat.mul_le_mul_right (2 ^ (52 - m.log2)) leading
    rw [← Nat.pow_add, Nat.add_sub_cancel' lead] at this
    omega
  rw [aligned, dyadic_rescale m (show (m.log2 : Int) + e - 52 ≤ e by omega)]
  congr 3
  omega

/-- A number without its leading bit, moved to where the fraction of the wide format begins. -/
theorem fraction_normalize {m : Nat} (lead : m.log2 ≤ 52) :
    (m - 2 ^ m.log2) * 2 ^ (52 - m.log2) < 2 ^ 52 := by
  have above := Nat.lt_log2_self (n := m)
  rw [Nat.pow_succ] at above
  have below : m - 2 ^ m.log2 < 2 ^ m.log2 := by
    have := Nat.two_pow_pos m.log2
    omega
  have scaled := Nat.mul_lt_mul_of_pos_right below (Nat.two_pow_pos (52 - m.log2))
  rwa [← Nat.pow_add, Nat.add_sub_cancel' lead] at scaled

/-- A widened pattern is put together of the sign of the narrow one and of fields that denote the
same. -/
def WidensExactly (l : Layout) (bits : Nat) : Prop :=
  ∃ e f, e < 2 ^ double.exponentBits ∧ f < 2 ^ double.fractionBits ∧
    l.widen bits = double.join (l.negative bits) e f ∧
    ∀ s t, (double.magnitude (double.join s e f)).value? t = (l.magnitude bits).value? t

section Widen

variable {l : Layout} {bits : Nat}

theorem widens_infinite (h : l.magnitude bits = .infinite) : l.WidensExactly bits := by
  refine ⟨double.topExponent, 0, by decide, by decide, by rw [widen, h], ?_⟩
  intro s t
  rw [h]
  cases s <;> rfl

/-- The payload of a NaN fits, and with the quiet bit it is not empty. -/
theorem widens_nan {payload : Nat} (h : l.magnitude bits = .nan payload)
    (precision : l.fractionBits ≤ 52) (bound : payload < 2 ^ l.fractionBits) :
    l.WidensExactly bits := by
  have shifted := Nat.mul_lt_mul_of_pos_right bound (Nat.two_pow_pos (52 - l.fractionBits))
  rw [← Nat.pow_add, Nat.add_sub_cancel' precision] at shifted
  have fits : payload * 2 ^ (52 - l.fractionBits) ||| 2 ^ 51 < 2 ^ 52 :=
    Nat.or_lt_two_pow shifted (by decide)
  have quiet : payload * 2 ^ (52 - l.fractionBits) ||| 2 ^ 51 ≠ 0 :=
    Nat.ne_of_gt (Nat.lt_of_lt_of_le (Nat.two_pow_pos 51) Nat.right_le_or)
  refine ⟨double.topExponent, _, by decide, fits, by rw [widen, h]; rfl, ?_⟩
  intro s t
  rw [h, magnitude_of_top double (exponent_join double s (by decide) fits),
    fraction_join double s fits, if_neg quiet]
  rfl

theorem widens_zero {e : Int} (h : l.magnitude bits = .finite 0 e) : l.WidensExactly bits := by
  refine ⟨0, 0, by decide, by decide, by simp [widen, h], ?_⟩
  intro s t
  have zero : double.magnitude (double.join s 0 0) = .finite 0 (-1074) := by cases s <;> rfl
  have nothing (e : Int) : dyadic 0 e = 0 := by simp [dyadic]
  rw [h, zero, Magnitude.value?, Magnitude.value?, nothing, nothing]

theorem widen_of_number {m : Nat} {e : Int} (h : l.magnitude bits = .finite m e)
    (nonzero : m ≠ 0) :
    l.widen bits = double.join (l.negative bits) (m.log2 + e + 1023).toNat
      ((m - 2 ^ m.log2) * 2 ^ (52 - m.log2)) := by
  rw [widen, h]
  split
  next => contradiction
  next => contradiction
  next zero =>
    cases zero
    contradiction
  next same =>
    cases same
    rfl

theorem widens_number {m : Nat} {e : Int} (h : l.magnitude bits = .finite m e) (nonzero : m ≠ 0)
    (lead : m.log2 ≤ 52) (least : -1022 ≤ m.log2 + e) (most : m.log2 + e ≤ 1023) :
    l.WidensExactly bits := by
  have exponent : (m.log2 + e + 1023).toNat < 2 ^ 11 := by omega
  have fraction := fraction_normalize lead
  refine ⟨_, _, exponent, fraction, widen_of_number h nonzero, ?_⟩
  intro s t
  have top : double.topExponent = 2047 := rfl
  have unit : double.bias + double.fractionBits = 1075 := rfl
  have scale : ((m.log2 + e + 1023).toNat : Int) - (1075 : Nat) = m.log2 + e - 52 := by omega
  rw [magnitude_join double s exponent fraction (by omega) (by omega), unit, scale, h,
    Magnitude.value?, Magnitude.value?, ← dyadic_normalize nonzero lead]
  rfl

theorem leading_bounds (narrow : l.Narrow) (number : l.exponent bits ≠ l.topExponent)
    (nonzero : l.significand bits ≠ 0) :
    (l.significand bits).log2 ≤ 52 ∧
      -1022 ≤ (l.significand bits).log2 + l.scale bits ∧
      (l.significand bits).log2 + l.scale bits ≤ 1023 := by
  obtain ⟨precision, smallest, largest⟩ := narrow
  have fraction := l.fraction_lt bits
  have exponent := l.exponent_le bits
  have lead : (l.significand bits).log2 < l.fractionBits + 1 := by
    rw [Nat.log2_lt nonzero, Nat.pow_succ, significand]
    split_ifs <;> omega
  unfold scale
  omega

theorem widens_exactly (narrow : l.Narrow) (bits : Nat) : l.WidensExactly bits := by
  by_cases top : l.exponent bits = l.topExponent
  · have special := magnitude_of_top l top
    by_cases infinite : l.fraction bits = 0
    · rw [if_pos infinite] at special
      exact widens_infinite special
    · rw [if_neg infinite] at special
      exact widens_nan special narrow.precision (l.fraction_lt bits)
  · have number := magnitude_of_number l top
    by_cases zero : l.significand bits = 0
    · rw [zero] at number
      exact widens_zero number
    · obtain ⟨lead, least, most⟩ := leading_bounds narrow top zero
      exact widens_number number zero lead least most

end Widen

end Layout

def Binary64.value? (x : Binary64) : Option Extended := x.magnitude.value? x.negative

namespace Binary32

def value? (x : Binary32) : Option Extended := x.magnitude.value? x.negative

/-- The widened pattern fits 64 bits, so its fields can be read back. -/
theorem bits_widen (x : Binary32) :
    ∃ e f, e < 2 ^ Layout.double.exponentBits ∧ f < 2 ^ Layout.double.fractionBits ∧
      x.widen.bits.toNat = Layout.double.join x.negative e f ∧
      ∀ s t, (Layout.double.magnitude (Layout.double.join s e f)).value? t =
        x.magnitude.value? t := by
  obtain ⟨e, f, he, hf, same, denotes⟩ :=
    Layout.widens_exactly Layout.narrow_single x.bits.toNat
  have bound : Layout.single.widen x.bits.toNat < 2 ^ 64 := by
    rw [same]
    exact Layout.join_lt Layout.double _ he hf
  exact ⟨e, f, he, hf, (UInt64.toNat_ofNat_of_lt' bound).trans same, denotes⟩

theorem negative_widen (x : Binary32) : x.widen.negative = x.negative := by
  obtain ⟨e, f, he, hf, same, -⟩ := bits_widen x
  rw [Binary64.negative, same, Layout.negative_join _ _ he hf]

theorem value?_magnitude_widen (x : Binary32) (s : Bool) :
    x.widen.magnitude.value? s = x.magnitude.value? s := by
  obtain ⟨e, f, -, -, same, denotes⟩ := bits_widen x
  rw [Binary64.magnitude, same]
  exact denotes _ s

theorem value?_widen (x : Binary32) : x.widen.value? = x.value? := by
  rw [Binary64.value?, negative_widen, value?_magnitude_widen, value?]

variable {x y : Binary32}

theorem compare_widen (hx : x.value? ≠ none) (hy : y.value? ≠ none) :
    x.widen.magnitude.compare y.widen.magnitude = x.magnitude.compare y.magnitude := by
  obtain ⟨a, ha⟩ := Layout.Magnitude.exists_value hx false
  obtain ⟨b, hb⟩ := Layout.Magnitude.exists_value hy false
  have wideA := (value?_magnitude_widen x false).trans ha
  have wideB := (value?_magnitude_widen y false).trans hb
  rw [Layout.Magnitude.compare_eq_cmp ha hb, Layout.Magnitude.compare_eq_cmp wideA wideB]

theorem totalOrder_widen (hx : x.value? ≠ none) (hy : y.value? ≠ none) :
    Layout.double.totalOrder x.widen.bits.toNat y.widen.bits.toNat =
      Layout.single.totalOrder x.bits.toNat y.bits.toNat := by
  have signX : Layout.double.negative x.widen.bits.toNat = x.negative := negative_widen x
  have signY : Layout.double.negative y.widen.bits.toNat = y.negative := negative_widen y
  have upwards := compare_widen hx hy
  have downwards := compare_widen hy hx
  unfold Binary64.magnitude at upwards downwards
  unfold Layout.totalOrder
  rw [signX, signY, upwards, downwards]
  rfl

theorem eq_of_widen (hx : x.value? ≠ none) (hy : y.value? ≠ none) (h : x.widen = y.widen) :
    x = y := by
  have same : Ord.compare x.place y.place = .eq := by
    rw [compare_place, ← totalOrder_widen hx hy, h, ← Binary64.compare_place]
    exact Std.ReflCmp.compare_self
  exact eq_of_place (compare_eq_iff_eq.mp same)

end Binary32

theorem Binary64.eq_of_toBytes {x y : Binary64} (h : x.toBytes = y.toBytes) : x = y := by
  have same := congrArg Bytes.toNat h
  rw [toBytes, toBytes, Bytes.toNat_bigEndian_of_lt x.bits.toNat_lt,
    Bytes.toNat_bigEndian_of_lt y.bits.toNat_lt] at same
  obtain ⟨a⟩ := x
  obtain ⟨b⟩ := y
  congr 1
  exact UInt64.toNat_inj.mp same

/-! ## Where floats are widened -/

theorem writes_float (x : Binary32) : (Value.float x).Writes x.widen.toBytes :=
  Value.writes_flat rfl

section Keys

variable {a b : Datum} {x y : Binary32}

theorem keyOrder_float (ord : ObjectOrder) (ha : a.keyForm = .float x) (d : Datum) :
    ord.keyOrder a d = ord.keyOrder (.double x.widen) d ∧
      ord.keyOrder d a = ord.keyOrder d (.double x.widen) := by
  constructor <;>
    rw [ObjectOrder.keyOrder, ObjectOrder.keyOrder, ha, plainKeyOrder_eq, plainKeyOrder_eq] <;>
    rfl

theorem keyOrder_floats (ord : ObjectOrder) (ha : a.keyForm = .float x)
    (hb : b.keyForm = .float y) (hx : x.value? ≠ none) (hy : y.value? ≠ none) :
    ord.keyOrder a b = Layout.single.totalOrder x.bits.toNat y.bits.toNat := by
  rw [ObjectOrder.keyOrder, ha, hb, plainKeyOrder_of_float rfl rfl, Binary64.compare_place,
    Binary32.totalOrder_widen hx hy]

/-- What a float is sent as, becomes for scripts and is compared by as a key is one 64-bit float
of the same sign and meaning. Among numbers and infinities the order of keys is the total order of
the floats themselves, and different floats are sent as different bytes. -/
theorem widening_exact (ha : a.keyForm = .float x) (hb : b.keyForm = .float y) :
    ((Value.float x).Writes x.widen.toBytes ∧
      (∀ c, (Value.float x).scripted c = .ok (.number x.widen) ∧
        (Datum.float x).scripted c = .ok (.number x.widen)) ∧
      (∀ d, a.serverCompare d = (Datum.double x.widen).serverCompare d ∧
        d.serverCompare a = d.serverCompare (.double x.widen)) ∧
      ∀ (ord : ObjectOrder) (d : Datum), ord.keyOrder a d = ord.keyOrder (.double x.widen) d ∧
        ord.keyOrder d a = ord.keyOrder d (.double x.widen)) ∧
    (x.widen.negative = x.negative ∧ x.widen.value? = x.value?) ∧
    (x.value? ≠ none → y.value? ≠ none →
      a.serverCompare b = Layout.single.totalOrder x.bits.toNat y.bits.toNat ∧
      (∀ ord : ObjectOrder,
        ord.keyOrder a b = Layout.single.totalOrder x.bits.toNat y.bits.toNat) ∧
      (x ≠ y → ∀ bytes, (Value.float x).Writes bytes → ¬ (Value.float y).Writes bytes)) := by
  rw [← keyOrder_fieldwise]
  refine ⟨⟨writes_float x, fun c => ⟨rfl, rfl⟩, keyOrder_float _ ha,
    fun ord => keyOrder_float ord ha⟩, ⟨x.negative_widen, x.value?_widen⟩, ?_⟩
  intro hx hy
  refine ⟨keyOrder_floats _ ha hb hx hy, fun ord => keyOrder_floats ord ha hb hx hy, ?_⟩
  intro different bytes written written'
  have sent := (writes_float x).unique written
  have sent' := (writes_float y).unique written'
  exact different (Binary32.eq_of_widen hx hy (Binary64.eq_of_toBytes (sent.trans sent'.symm)))

end Keys

/-- The smallest number above zero becomes a normal number. A classified minus zero is below it. -/
theorem widening_exact_smallest :
    (Value.float ⟨1⟩).Writes [0x36, 0xa0, 0, 0, 0, 0, 0, 0] ∧
      (⟨1⟩ : Binary32).widen.value? = (⟨1⟩ : Binary32).value? ∧
      (Datum.float ⟨1⟩).serverCompare (.value (.float ⟨0x80000000⟩)) = .gt ∧
      ¬ (Value.float ⟨0x80000000⟩).Writes [0x36, 0xa0, 0, 0, 0, 0, 0, 0] := by
  have sent : (⟨1⟩ : Binary32).widen.toBytes = [0x36, 0xa0, 0, 0, 0, 0, 0, 0] := by decide
  have least : (⟨1⟩ : Binary32).magnitude = .finite 1 (-149) := by decide
  have zero : (⟨0x80000000⟩ : Binary32).magnitude = .finite 0 (-149) := by decide
  obtain ⟨⟨written, -⟩, ⟨-, value⟩, numbers⟩ :=
    widening_exact (a := .float ⟨1⟩) (b := .value (.float ⟨0x80000000⟩)) rfl rfl
  obtain ⟨order, -, different⟩ :=
    numbers (by simp [Binary32.value?, least, Layout.Magnitude.value?])
      (by simp [Binary32.value?, zero, Layout.Magnitude.value?])
  rw [sent] at written
  exact ⟨written, value, order.trans rfl, different (by decide) _ written⟩

end BinCodec
