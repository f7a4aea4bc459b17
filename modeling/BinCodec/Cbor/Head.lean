import BinCodec.Error
import BinCodec.Float.Layout

/-!
# Heads of CBOR items

Every CBOR item starts with a head: a major type in the upper three bits of the first byte
and an argument, held in the lower five bits or in the 1, 2, 4 or 8 bytes that follow.
`Head.encode` writes the shortest form, `Head.read` reads any form.
-/

namespace BinCodec.Cbor

/-- The head of an item. Lengths are absent where the item ends with a break. -/
inductive Head where
  /-- The integer `n`. -/
  | positive (n : Nat)
  /-- The integer `-1 - n`. -/
  | negative (n : Nat)
  | bytes (length : Option Nat)
  | text (length : Option Nat)
  | array (length : Option Nat)
  | map (length : Option Nat)
  | tag (n : Nat)
  | simple (n : Nat)
  | float (x : Binary64)
  /-- The end of an item of indefinite length. -/
  | stop
deriving DecidableEq, Repr

namespace Head

/-! ## Simple values and tags with a meaning -/

def falseValue : Nat := 20

def trueValue : Nat := 21

def nullValue : Nat := 22

def undefinedValue : Nat := 23

/-- The tag of nonnegative integers given by their big-endian bytes. -/
def bigPositive : Nat := 2

/-- The tag of negative integers `-1 - n` given by the big-endian bytes of `n`. -/
def bigNegative : Nat := 3

/-! ## Writing -/

def initial (major argument : Nat) : UInt8 := UInt8.ofNat (major * 32 + argument)

/-- A head with the shortest form of its argument. -/
def shortest (major n : Nat) : Bytes :=
  if n < 24 then [initial major n]
  else if n < 0x100 then initial major 24 :: Bytes.bigEndian 1 n
  else if n < 0x10000 then initial major 25 :: Bytes.bigEndian 2 n
  else if n < 0x100000000 then initial major 26 :: Bytes.bigEndian 4 n
  else initial major 27 :: Bytes.bigEndian 8 n

/-- A head with an optional length. -/
def sized (major : Nat) : Option Nat → Bytes
  | some n => shortest major n
  | none => [initial major 31]

def encodeFloat (x : Binary64) : Bytes :=
  match Layout.half.narrow? x.bits.toNat with
  | some bits => initial 7 25 :: Bytes.bigEndian 2 bits
  | none =>
    match Layout.single.narrow? x.bits.toNat with
    | some bits => initial 7 26 :: Bytes.bigEndian 4 bits
    | none => initial 7 27 :: x.toBytes

/-- The bytes of a head, in the shortest form. -/
def encode : Head → Bytes
  | positive n => shortest 0 n
  | negative n => shortest 1 n
  | bytes length => sized 2 length
  | text length => sized 3 length
  | array length => sized 4 length
  | map length => sized 5 length
  | tag n => shortest 6 n
  | simple n => shortest 7 n
  | float x => encodeFloat x
  | stop => [initial 7 31]

/-! ## Reading -/

def split (count : Nat) (input : Bytes) : Except DecodeError (Bytes × Bytes) :=
  let front := input.take count
  if front.length = count then .ok (front, input.drop count) else .error .endOfInput

/-- The argument of a head, given the lower five bits of its first byte. A value of 31 means
that there is none, and 28 to 30 have no meaning. -/
def argument (low : Nat) (input : Bytes) : Except DecodeError (Option Nat × Bytes) :=
  let wide (width : Nat) := (split width input).map fun (front, rest) =>
    (some (Bytes.toNat front), rest)
  if low < 24 then .ok (some low, input)
  else if low = 24 then wide 1
  else if low = 25 then wide 2
  else if low = 26 then wide 4
  else if low = 27 then wide 8
  else if low = 31 then .ok (none, input)
  else .error .malformed

/-- The head with the given major type, lower five bits and argument. Integers and tags need
an argument. -/
def ofParts (major low : Nat) (n : Option Nat) : Except DecodeError Head :=
  match major, n with
  | 0, some n => .ok (positive n)
  | 1, some n => .ok (negative n)
  | 2, n => .ok (bytes n)
  | 3, n => .ok (text n)
  | 4, n => .ok (array n)
  | 5, n => .ok (map n)
  | 6, some n => .ok (tag n)
  | 7, none => .ok stop
  | 7, some n =>
    if low = 25 then .ok (float ⟨UInt64.ofNat (Layout.half.widen n)⟩)
    else if low = 26 then .ok (float ⟨UInt64.ofNat (Layout.single.widen n)⟩)
    else if low = 27 then .ok (float ⟨UInt64.ofNat n⟩)
    else .ok (simple n)
  | _, _ => .error .malformed

def read : Bytes → Except DecodeError (Head × Bytes)
  | [] => .error .endOfInput
  | first :: input =>
    let major := first.toNat / 32
    let low := first.toNat % 32
    match argument low input with
    | .error e => .error e
    | .ok (n, rest) => (ofParts major low n).map fun head => (head, rest)

theorem read_initial {major low : Nat} (hm : major < 8) (hl : low < 32) (input : Bytes) :
    read (initial major low :: input) =
      match argument low input with
      | .error e => .error e
      | .ok (n, rest) => (ofParts major low n).map fun head => (head, rest) := by
  have h : (initial major low).toNat = major * 32 + low := by
    simp only [initial, UInt8.toNat_ofNat']
    omega
  have hmajor : (major * 32 + low) / 32 = major := by omega
  have hlow : (major * 32 + low) % 32 = low := by omega
  simp only [read, h, hmajor, hlow]

end Head

end BinCodec.Cbor
