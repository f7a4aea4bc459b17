import BinCodec.Float.Layout

/-!
# Decimal text of floats

A finite float is written with the fewest significant digits that still identify it among
the floats of its own width. On the decimal grid of a given number of digits only the two
neighbours of the value matter; the first grid with a neighbour that rounds back to the
value wins, of two such neighbours the nearer, and an exact tie goes to the larger one.
The digits are always written out positionally, without an exponent.
-/

namespace BinCodec

attribute [local instance] builtInPow

/-- The natural number `coefficient` times a power of ten. -/
structure Decimal where
  coefficient : Nat
  exponent : Int
deriving DecidableEq, Repr

namespace Decimal

/-- The nonnegative numbers that round to one float, over a common denominator. -/
structure Interval where
  low : Nat
  value : Nat
  high : Nat
  denominator : Nat
  /-- Whether the two ends round to the float as well. -/
  closed : Bool

/-- The rounding interval of `significand * 2 ^ scale`. The gap below is half as wide where
the exponent of the next smaller float is smaller. -/
def Interval.around (significand : Nat) (scale : Int) (narrowBelow : Bool) : Interval :=
  let up := 2 ^ (scale - 2).toNat
  { low := (4 * significand - if narrowBelow then 1 else 2) * up
    value := 4 * significand * up
    high := (4 * significand + 2) * up
    denominator := 2 ^ (2 - scale).toNat
    closed := significand % 2 == 0 }

/-- The number `p` with `10 ^ (p - 1) ≤ value < 10 ^ p`. The value is scaled up first, so
that its whole part has digits to count. -/
def Interval.decade (i : Interval) : Int :=
  let places : Nat := 400
  (toString (i.value * 10 ^ places / i.denominator)).length - places

/-- The neighbour of the value on the grid of multiples of `10 ^ exponent` that lies in the
interval, the nearer one if both do. -/
def Interval.onGrid? (i : Interval) (exponent : Int) : Option Nat :=
  let up := 10 ^ (-exponent).toNat
  let unit := i.denominator * 10 ^ exponent.toNat
  let value := i.value * up
  let below := value / unit
  let within (n : Nat) : Bool :=
    if i.closed then i.low * up ≤ n * unit && n * unit ≤ i.high * up
    else i.low * up < n * unit && n * unit < i.high * up
  let nearer := if unit ≤ 2 * (value % unit) then below + 1 else below
  if within below && within (below + 1) then some nearer
  else if within below then some below
  else if within (below + 1) then some (below + 1)
  else none

/-- Moves trailing zeros of the coefficient, at most `fuel` of them, into the exponent. -/
def stripZeros : Nat → Decimal → Decimal
  | 0, d => d
  | fuel + 1, d =>
    if d.coefficient ≠ 0 ∧ d.coefficient % 10 = 0 then
      stripZeros fuel ⟨d.coefficient / 10, d.exponent + 1⟩
    else
      d

/-- Seventeen digits identify every 64-bit float. -/
def mostDigits : Nat := 17

def shortest (i : Interval) : Decimal :=
  let decade := i.decade
  let found := (List.range mostDigits).findSome? fun n =>
    let exponent := decade - (n + 1 : Nat)
    (i.onGrid? exponent).map fun c => stripZeros mostDigits ⟨c, exponent⟩
  found.getD ⟨0, 0⟩

/-- Digits before and after a decimal point, without an exponent. -/
def positional (d : Decimal) : String :=
  let digits := toString d.coefficient
  if 0 ≤ d.exponent then
    digits ++ String.ofList (List.replicate d.exponent.toNat '0')
  else
    let places := (-d.exponent).toNat
    let padded := List.replicate (places + 1 - digits.length) '0' ++ digits.toList
    let whole := padded.length - places
    String.ofList (padded.take whole) ++ "." ++ String.ofList (padded.drop whole)

end Decimal

/-- The decimal text of a pattern of the given layout. Zero keeps its sign; NaNs have none. -/
def Layout.decimalText (l : Layout) (bits : Nat) : String :=
  let sign := if l.negative bits then "-" else ""
  match l.magnitude bits with
  | .nan _ => "NaN"
  | .infinite => sign ++ "inf"
  | .finite 0 _ => sign ++ "0"
  | .finite significand scale =>
    let narrowBelow := l.fraction bits = 0 ∧ 1 < l.exponent bits
    sign ++ (Decimal.shortest (.around significand scale narrowBelow)).positional

def Binary64.toText (x : Binary64) : String := Layout.double.decimalText x.bits.toNat

/-- The decimal text of a 32-bit float, with the digits its own width needs. -/
def Binary32.toText (x : Binary32) : String := Layout.single.decimalText x.bits.toNat

end BinCodec
