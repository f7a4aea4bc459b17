import BinCodec.Bytes

/-!
# IEEE binary formats

Floating-point numbers are handled as bit patterns. A `Layout` gives the widths of the
fields of a format; a pattern is then a sign, a biased exponent and a fraction, and it
denotes a signed integer times a power of two, an infinity or a NaN. Widening to the
64-bit format keeps that meaning exactly, and narrowing is the partial inverse of widening.
-/

namespace BinCodec

attribute [local instance] builtInPow

/-- Field widths of an IEEE binary format. -/
structure Layout where
  /-- Bits of the biased exponent. -/
  exponentBits : Nat
  /-- Bits of the fraction. -/
  fractionBits : Nat
deriving DecidableEq, Repr

/-- A 64-bit IEEE float, given by its bits. -/
structure Binary64 where
  bits : UInt64
deriving DecidableEq, Repr

structure Binary32 where
  bits : UInt32
deriving DecidableEq, Repr

namespace Layout

def half : Layout := ⟨5, 10⟩

def single : Layout := ⟨8, 23⟩

def double : Layout := ⟨11, 52⟩

/-- The exponent field of infinities and NaNs: all ones. -/
def topExponent (l : Layout) : Nat := 2 ^ l.exponentBits - 1

/-- What is added to an exponent to store it. -/
def bias (l : Layout) : Nat := 2 ^ (l.exponentBits - 1) - 1

def fraction (l : Layout) (bits : Nat) : Nat := bits % 2 ^ l.fractionBits

def exponent (l : Layout) (bits : Nat) : Nat :=
  bits / 2 ^ l.fractionBits % 2 ^ l.exponentBits

def negative (l : Layout) (bits : Nat) : Bool :=
  bits / 2 ^ (l.fractionBits + l.exponentBits) % 2 == 1

def join (l : Layout) (negative : Bool) (exponent fraction : Nat) : Nat :=
  (negative.toNat * 2 ^ l.exponentBits + exponent) * 2 ^ l.fractionBits + fraction

/-- What a pattern denotes, its sign apart. -/
inductive Magnitude where
  /-- The number `significand * 2 ^ scale`. -/
  | finite (significand : Nat) (scale : Int)
  | infinite
  /-- Not a number, with its fraction field. -/
  | nan (payload : Nat)
deriving DecidableEq, Repr

/-- The meaning of a pattern: an exponent field of zero marks the numbers without the
implicit leading one. -/
def magnitude (l : Layout) (bits : Nat) : Magnitude :=
  let e := l.exponent bits
  let f := l.fraction bits
  if e = l.topExponent then
    if f = 0 then .infinite else .nan f
  else if e = 0 then
    .finite f (1 - (l.bias + l.fractionBits : Nat))
  else
    .finite (2 ^ l.fractionBits + f) (e - (l.bias + l.fractionBits : Nat))

/-- The 64-bit pattern of the same meaning. A finite number is renormalised, so the small
numbers of the narrow format get an explicit exponent; a NaN keeps its sign and payload
and becomes quiet. -/
def widen (l : Layout) (bits : Nat) : Nat :=
  let negative := l.negative bits
  match l.magnitude bits with
  | .infinite => double.join negative double.topExponent 0
  | .nan payload =>
    double.join negative double.topExponent
      (payload * 2 ^ (double.fractionBits - l.fractionBits) ||| 2 ^ (double.fractionBits - 1))
  | .finite 0 _ => double.join negative 0 0
  | .finite significand scale =>
    let lead := significand.log2
    double.join negative (lead + scale + double.bias).toNat
      ((significand - 2 ^ lead) * 2 ^ (double.fractionBits - lead))

/-- The only narrow pattern that can widen to a 64-bit pattern: its leading bits. -/
def leadingBits (l : Layout) (bits : Nat) : Nat :=
  let negative := double.negative bits
  match double.magnitude bits with
  | .infinite => l.join negative l.topExponent 0
  | .nan payload =>
    l.join negative l.topExponent (payload / 2 ^ (double.fractionBits - l.fractionBits))
  | .finite 0 _ => l.join negative 0 0
  | .finite significand scale =>
    let lead := significand.log2
    let power := lead + scale
    if 1 - (l.bias : Int) ≤ power then
      l.join negative (power + l.bias).toNat
        ((significand - 2 ^ lead) / 2 ^ (lead - l.fractionBits))
    else
      let least := 1 - (l.bias : Int) - l.fractionBits
      l.join negative 0 (significand / 2 ^ (least - scale).toNat)

/-- The narrow pattern that widens to exactly the given 64-bit pattern, if there is one. -/
def narrow? (l : Layout) (bits : Nat) : Option Nat :=
  let candidate := l.leadingBits bits
  if candidate < 2 ^ (1 + l.exponentBits + l.fractionBits) ∧ l.widen candidate = bits then
    some candidate
  else
    none

theorem widen_of_narrow? {l : Layout} {bits narrow : Nat} (h : l.narrow? bits = some narrow) :
    l.widen narrow = bits := by
  simp only [narrow?] at h
  split at h
  next hc =>
    cases h
    exact hc.2
  · cases h

end Layout

namespace Binary32

def magnitude (x : Binary32) : Layout.Magnitude := Layout.single.magnitude x.bits.toNat

def negative (x : Binary32) : Bool := Layout.single.negative x.bits.toNat

/-- The 64-bit float of the same meaning. -/
def widen (x : Binary32) : Binary64 := ⟨UInt64.ofNat (Layout.single.widen x.bits.toNat)⟩

def toBytes (x : Binary32) : Bytes := Bytes.bigEndian 4 x.bits.toNat

end Binary32

namespace Binary64

def magnitude (x : Binary64) : Layout.Magnitude := Layout.double.magnitude x.bits.toNat

def negative (x : Binary64) : Bool := Layout.double.negative x.bits.toNat

def toBytes (x : Binary64) : Bytes := Bytes.bigEndian 8 x.bits.toNat

end Binary64

end BinCodec
