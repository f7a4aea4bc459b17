import BinCodec.Float.Layout

/-!
# Truncation to fixed-width integers

A float becomes an integer by dropping its fraction towards zero and clamping the result
to the range asked for. Infinities go to the matching end of the range, NaNs to zero.
-/

namespace BinCodec

attribute [local instance] builtInPow

/-- Drops the fraction of `significand * 2 ^ scale`. -/
def truncateMagnitude (significand : Nat) (scale : Int) : Nat :=
  match scale with
  | .ofNat k => significand * 2 ^ k
  | .negSucc k => significand / 2 ^ (k + 1)

def clamp (low high n : Int) : Int :=
  if n < low then low else if high < n then high else n

/-- Saturating truncation of a signed magnitude into the range `low` to `high`. -/
def Layout.Magnitude.saturate (m : Layout.Magnitude) (negative : Bool) (low high : Int) : Int :=
  match m with
  | .nan _ => 0
  | .infinite => if negative then low else high
  | .finite significand scale =>
    let n : Int := truncateMagnitude significand scale
    clamp low high (if negative then -n else n)

def Binary64.toInt64 (x : Binary64) : Int64 :=
  Int64.ofInt (x.magnitude.saturate x.negative Int64.minValue.toInt Int64.maxValue.toInt)

def Binary64.toInt32 (x : Binary64) : Int32 :=
  Int32.ofInt (x.magnitude.saturate x.negative Int32.minValue.toInt Int32.maxValue.toInt)

def Binary32.toInt64 (x : Binary32) : Int64 :=
  Int64.ofInt (x.magnitude.saturate x.negative Int64.minValue.toInt Int64.maxValue.toInt)

def Binary32.toInt32 (x : Binary32) : Int32 :=
  Int32.ofInt (x.magnitude.saturate x.negative Int32.minValue.toInt Int32.maxValue.toInt)

end BinCodec
