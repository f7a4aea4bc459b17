import BinCodec.Float.Layout

/-!
# Writing into a buffer

A write replaces bytes of a buffer from an offset on and reports how many it wrote. It has to
fit entirely; even writing nothing needs an offset inside the buffer or at its end.
-/

namespace BinCodec

inductive WriteFault where
  /-- The bytes to write were never computed. -/
  | notEstimated
  /-- The write would pass the end of the buffer. -/
  | outOfBounds
deriving DecidableEq, Repr

def WriteFault.message? : WriteFault → Option String
  | notEstimated => some "write called before estimate_size"
  | outOfBounds => none

/-- A completed write: the number of bytes written and the buffer. -/
structure Written where
  count : Nat
  buffer : Bytes
deriving DecidableEq, Repr

namespace Bytes

/-- Writes bytes into a buffer at an offset. -/
def writeAt (b buffer : Bytes) (offset : Nat) : Except WriteFault Written :=
  if offset + b.length ≤ buffer.length then
    .ok ⟨b.length, buffer.take offset ++ b ++ buffer.drop (offset + b.length)⟩
  else
    .error .outOfBounds

/-- The eight bytes of a 64-bit integer, most significant first. -/
def ofLong (n : Int64) : Bytes := bigEndian 8 n.toUInt64.toNat

/-- The two bytes of a 16-bit word, most significant first. -/
def ofShort (n : UInt16) : Bytes := bigEndian 2 n.toNat

@[simp] theorem length_ofLong (n : Int64) : (ofLong n).length = 8 := length_bigEndian 8 _

theorem writeAt_of_le {b buffer : Bytes} {offset : Nat} (h : offset + b.length ≤ buffer.length) :
    b.writeAt buffer offset =
      .ok ⟨b.length, buffer.take offset ++ b ++ buffer.drop (offset + b.length)⟩ := by
  simp [writeAt, h]

theorem writeAt_of_lt {b buffer : Bytes} {offset : Nat} (h : buffer.length < offset + b.length) :
    b.writeAt buffer offset = .error .outOfBounds := by
  simp [writeAt, Nat.not_le.mpr h]

end Bytes

end BinCodec
