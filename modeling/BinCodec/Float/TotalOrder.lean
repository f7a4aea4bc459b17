import BinCodec.Float.Layout

/-!
# The IEEE total order

Every bit pattern has a place on a line: the patterns with a clear sign bit are numbered
upwards from zero, those with a set sign bit downwards from minus one. The order of places
is the IEEE `totalOrder`: negative NaNs, minus infinity, the negative numbers, minus zero,
zero, the positive numbers, infinity, positive NaNs.
-/

namespace BinCodec

attribute [local instance] builtInPow

/-- The place of a pattern of the given width in the total order. -/
def totalOrderPlace (width bits : Nat) : Int :=
  if bits < 2 ^ (width - 1) then bits else 2 ^ (width - 1) - 1 - (bits : Int)

theorem totalOrderPlace_injective {width : Nat} {a b : Nat}
    (h : totalOrderPlace width a = totalOrderPlace width b) : a = b := by
  unfold totalOrderPlace at h
  have hp : ((2 : Int) ^ (width - 1)) = ((2 ^ (width - 1) : Nat) : Int) := by simp
  rw [hp] at h
  split at h <;> split at h <;> omega

def Binary64.place (x : Binary64) : Int := totalOrderPlace 64 x.bits.toNat

def Binary32.place (x : Binary32) : Int := totalOrderPlace 32 x.bits.toNat

theorem Binary64.eq_of_place {x y : Binary64} (h : x.place = y.place) : x = y := by
  obtain ⟨a⟩ := x
  obtain ⟨b⟩ := y
  congr 1
  exact UInt64.toNat_inj.mp (totalOrderPlace_injective h)

theorem Binary32.eq_of_place {x y : Binary32} (h : x.place = y.place) : x = y := by
  obtain ⟨a⟩ := x
  obtain ⟨b⟩ := y
  congr 1
  exact UInt32.toNat_inj.mp (totalOrderPlace_injective h)

end BinCodec
