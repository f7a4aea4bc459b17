import BinCodec.Float.Layout
import BinCodec.Particle

/-!
# Packed scalars and headers

Collections are packed in MessagePack. Scalars follow the standard. Two extensions apply:
payloads carry their particle type as the first byte of a string item, and an ordered map
begins with an extension entry that holds the attributes of its order. Headers hold sizes of
up to 32 bits; higher bits of a size are dropped.
-/

namespace BinCodec.Pack

attribute [local instance] builtInPow

def nil : Bytes := [0xc0]

def boolean (b : Bool) : Bytes := [if b then 0xc3 else 0xc2]

/-- An integer of at most 64 bits, in the smallest form that holds it. -/
def integer (n : Int) : Bytes :=
  let word (width : Nat) : Bytes := Bytes.bigEndian width (n % 256 ^ width).toNat
  if 0 ≤ n then
    if n < 0x80 then word 1
    else if n < 0x100 then 0xcc :: word 1
    else if n < 0x10000 then 0xcd :: word 2
    else if n < 0x100000000 then 0xce :: word 4
    else 0xcf :: word 8
  else if -32 ≤ n then word 1
  else if -0x80 ≤ n then 0xd0 :: word 1
  else if -0x8000 ≤ n then 0xd1 :: word 2
  else if -0x80000000 ≤ n then 0xd2 :: word 4
  else 0xd3 :: word 8

def double (x : Binary64) : Bytes := 0xcb :: x.toBytes

def float (x : Binary32) : Bytes := 0xca :: x.toBytes

/-- The header of a string item of the given number of bytes. -/
def stringHeader (size : Nat) : Bytes :=
  if size < 32 then [UInt8.ofNat (0xa0 + size)]
  else if size < 0x100 then 0xd9 :: Bytes.bigEndian 1 size
  else if size < 0x10000 then 0xda :: Bytes.bigEndian 2 size
  else 0xdb :: Bytes.bigEndian 4 size

/-- A payload with its particle type. -/
def payload (particle : ParticleType) (b : Bytes) : Bytes :=
  stringHeader (b.length + 1) ++ particle.code :: b

def text (s : String) : Bytes := payload .string (Bytes.ofText s)

def geoJson (s : String) : Bytes := payload .geoJson (Bytes.ofText s)

def arrayHeader (size : Nat) : Bytes :=
  if size < 16 then [UInt8.ofNat (0x90 + size)]
  else if size < 0x10000 then 0xdc :: Bytes.bigEndian 2 size
  else 0xdd :: Bytes.bigEndian 4 size

def mapHeader (size : Nat) : Bytes :=
  if size < 16 then [UInt8.ofNat (0x80 + size)]
  else if size < 0x10000 then 0xde :: Bytes.bigEndian 2 size
  else 0xdf :: Bytes.bigEndian 4 size

/-- The entry that tells the order of a map: an extension key with a nil value. -/
def orderEntry (order : MapOrder) : Bytes := [0xc7, 0x00, order.attributes, 0xc0]

/-- The header of a map in the given order. An ordered map has one more entry. -/
def orderedMapHeader (size : Nat) (order : MapOrder) : Bytes :=
  match order with
  | .unordered => mapHeader size
  | .key | .keyValue => mapHeader (size + 1) ++ orderEntry order

/-- The upper end of a range. -/
def infinity : Bytes := [0xd4, 0xff, 0x01]

/-- Matches anything in a range. -/
def wildcard : Bytes := [0xd4, 0xff, 0x00]

end BinCodec.Pack
