import BinCodec.Bytes

/-!
# Universally unique identifiers

An identifier is a 128-bit number. Its text groups the 32 hexadecimal digits 8-4-4-4-12.
-/

namespace BinCodec

/-- A 128-bit identifier. -/
structure Uuid where
  bits : BitVec 128
deriving DecidableEq, Repr

namespace Uuid

theorem eq_of_toNat {i j : Uuid} (h : i.bits.toNat = j.bits.toNat) : i = j := by
  obtain ⟨m⟩ := i
  obtain ⟨n⟩ := j
  congr 1
  exact BitVec.eq_of_toNat_eq h

def toBytes (id : Uuid) : Bytes := Bytes.bigEndian 16 id.bits.toNat

/-- Lowercase hexadecimal digits in groups of 8, 4, 4, 4 and 12. -/
def toText (id : Uuid) : String :=
  let b := id.toBytes
  let group (start length : Nat) : String := Bytes.toHex ((b.drop start).take length)
  "-".intercalate [group 0 4, group 4 2, group 6 2, group 8 2, group 10 6]

theorem toBytes_inj {i j : Uuid} (h : i.toBytes = j.toBytes) : i = j := by
  have bits := congrArg Bytes.toNat h
  rw [toBytes, toBytes, Bytes.toNat_bigEndian_of_lt i.bits.isLt,
    Bytes.toNat_bigEndian_of_lt j.bits.isLt] at bits
  exact eq_of_toNat bits

theorem drop_eq_of_group {a b : Bytes} (start length : Nat)
    (group : (a.drop start).take length = (b.drop start).take length)
    (rest : a.drop (start + length) = b.drop (start + length)) : a.drop start = b.drop start := by
  rw [← List.take_append_drop length (a.drop start), ← List.take_append_drop length (b.drop start),
    List.drop_drop, List.drop_drop, group, rest]

/-- The groups are of fixed lengths, so each is read off the text. -/
theorem eq_of_toText {i j : Uuid} (h : i.toText = j.toText) : i = j := by
  have chars := congrArg String.toList h
  simp only [toText, String.toList_intercalate, List.intercalate, List.map, List.intersperse,
    List.flatten_cons, List.flatten_nil] at chars
  have groups (start length : Nat) : ((i.toBytes.drop start).take length).length =
      ((j.toBytes.drop start).take length).length := by
    simp [toBytes]
  obtain ⟨first, chars⟩ := Bytes.toHex_append_inj (groups 0 4) chars
  obtain ⟨second, chars⟩ := Bytes.toHex_append_inj (groups 4 2) (List.append_cancel_left chars)
  obtain ⟨third, chars⟩ := Bytes.toHex_append_inj (groups 6 2) (List.append_cancel_left chars)
  obtain ⟨fourth, chars⟩ := Bytes.toHex_append_inj (groups 8 2) (List.append_cancel_left chars)
  obtain ⟨fifth, -⟩ := Bytes.toHex_append_inj (groups 10 6) (List.append_cancel_left chars)
  have last : i.toBytes.drop 16 = j.toBytes.drop 16 := by
    rw [List.drop_of_length_le, List.drop_of_length_le] <;> simp [toBytes]
  apply toBytes_inj
  apply drop_eq_of_group 0 4 first
  apply drop_eq_of_group 4 2 second
  apply drop_eq_of_group 6 2 third
  apply drop_eq_of_group 8 2 fourth
  exact drop_eq_of_group 10 6 fifth last

end Uuid

end BinCodec
