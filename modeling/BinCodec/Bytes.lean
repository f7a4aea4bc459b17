/-!
# Byte sequences

Payloads, buffers and wire forms are lists of bytes. This file holds the fixed-width
big-endian encoding of naturals, with its round trip, the UTF-8 form of a text, the
lowercase hexadecimal rendering and a short digest of a byte sequence.
-/

namespace BinCodec

/-- The powers of the core library. A file that makes this an instance has them even where those of
a monoid are in scope. -/
abbrev builtInPow {α : Type} [NatPow α] : Pow α Nat := instPowNat

attribute [local instance] builtInPow

abbrev Bytes := List UInt8

namespace Bytes

/-! ## Big-endian naturals -/

/-- The `width` big-endian bytes of `n`; higher bits are dropped. -/
def bigEndian : Nat → Nat → Bytes
  | 0, _ => []
  | width + 1, n => bigEndian width (n / 256) ++ [UInt8.ofNat n]

/-- The natural with the given big-endian bytes. -/
def toNat (bytes : Bytes) : Nat :=
  bytes.foldl (fun n byte => n * 256 + byte.toNat) 0

@[simp] theorem length_bigEndian (width n : Nat) : (bigEndian width n).length = width := by
  induction width generalizing n with
  | zero => rfl
  | succ width ih => simp [bigEndian, ih]

theorem toNat_append_singleton (bytes : Bytes) (byte : UInt8) :
    toNat (bytes ++ [byte]) = toNat bytes * 256 + byte.toNat := by
  simp [toNat]

/-- Reading back drops exactly the bits that do not fit the width. -/
theorem toNat_bigEndian (width n : Nat) : toNat (bigEndian width n) = n % 256 ^ width := by
  induction width generalizing n with
  | zero => simp [bigEndian, toNat, Nat.mod_one]
  | succ width ih =>
    have split : n % 256 ^ (width + 1) = n % 256 + 256 * (n / 256 % 256 ^ width) := by
      rw [Nat.pow_succ, Nat.mul_comm, Nat.mod_mul]
    rw [bigEndian, toNat_append_singleton, ih, UInt8.toNat_ofNat', split]
    omega

theorem toNat_bigEndian_of_lt {width n : Nat} (h : n < 256 ^ width) :
    toNat (bigEndian width n) = n := by
  rw [toNat_bigEndian, Nat.mod_eq_of_lt h]

/-- The fewest big-endian bytes of a natural; zero takes none. -/
def minimal (n : Nat) : Bytes :=
  if n = 0 then [] else bigEndian (n.log2 / 8 + 1) n

/-! ## Text -/

def ofText (text : String) : Bytes := text.toUTF8.data.toList

def toText? (bytes : Bytes) : Option String := String.fromUTF8? ⟨bytes.toArray⟩

/-! ## Hexadecimal -/

def hexDigit (n : Nat) : Char := Nat.digitChar n

def toHex (bytes : Bytes) : String :=
  String.ofList (bytes.flatMap fun byte => [hexDigit (byte.toNat / 16), hexDigit (byte.toNat % 16)])

/-- The value of a lowercase or uppercase hexadecimal digit. -/
def hexValue? (c : Char) : Option Nat :=
  if '0' ≤ c ∧ c ≤ '9' then some (c.toNat - '0'.toNat)
  else if 'a' ≤ c ∧ c ≤ 'f' then some (c.toNat - 'a'.toNat + 10)
  else if 'A' ≤ c ∧ c ≤ 'F' then some (c.toNat - 'A'.toNat + 10)
  else none

/-- Reads pairs of hexadecimal digits onto a reversed list of bytes. -/
def ofHexDigits? : List Char → Bytes → Option Bytes
  | [], read => some read.reverse
  | [_], _ => none
  | high :: low :: rest, read => do
    let h ← hexValue? high
    let l ← hexValue? low
    ofHexDigits? rest (UInt8.ofNat (h * 16 + l) :: read)

def ofHex? (text : String) : Option Bytes := ofHexDigits? text.toList []

theorem hexValue?_hexDigit : ∀ n < 16, hexValue? (hexDigit n) = some n := by decide

theorem ofHexDigits?_flatMap (bytes read : Bytes) :
    ofHexDigits? (bytes.flatMap fun byte => [hexDigit (byte.toNat / 16), hexDigit (byte.toNat % 16)])
      read = some (read.reverse ++ bytes) := by
  induction bytes generalizing read with
  | nil => simp [ofHexDigits?]
  | cons byte bytes ih =>
    have high : byte.toNat / 16 < 16 := by have := byte.toNat_lt; omega
    have low : byte.toNat % 16 < 16 := Nat.mod_lt _ (by decide)
    have value : UInt8.ofNat (byte.toNat / 16 * 16 + byte.toNat % 16) = byte := by
      rw [Nat.div_add_mod', UInt8.ofNat_toNat]
    rw [List.flatMap_cons, List.cons_append, List.cons_append, List.nil_append, ofHexDigits?,
      hexValue?_hexDigit _ high, hexValue?_hexDigit _ low]
    simp only [Option.bind_eq_bind, Option.bind_some, value, ih, List.reverse_cons,
      List.append_assoc, List.cons_append, List.nil_append]

theorem ofHex?_toHex (bytes : Bytes) : ofHex? bytes.toHex = some bytes := by
  rw [ofHex?, toHex, String.toList_ofList, ofHexDigits?_flatMap]
  rfl

theorem length_toHex (bytes : Bytes) : (toHex bytes).toList.length = 2 * bytes.length := by
  rw [toHex, String.toList_ofList]
  induction bytes with
  | nil => rfl
  | cons byte bytes ih => simp [ih]; omega

/-- Texts that begin with as many bytes in hexadecimal begin with the same bytes. -/
theorem toHex_append_inj {a b : Bytes} {s t : List Char} (length : a.length = b.length)
    (h : a.toHex.toList ++ s = b.toHex.toList ++ t) : a = b ∧ s = t := by
  have lengths : a.toHex.toList.length = b.toHex.toList.length := by
    rw [length_toHex, length_toHex, length]
  obtain ⟨front, back⟩ := List.append_inj h lengths
  have same := congrArg ofHex? (String.toList_inj.mp front)
  rw [ofHex?_toHex, ofHex?_toHex] at same
  exact ⟨Option.some.inj same, back⟩

/-! ## Digest -/

/-- The 64-bit FNV-1a digest: each byte is mixed in by exclusive or, then multiplied. -/
def fnv1a (bytes : Bytes) : UInt64 :=
  bytes.foldl (fun state byte => (state ^^^ byte.toUInt64) * 0x100000001b3) 0xcbf29ce484222325

end Bytes

end BinCodec
