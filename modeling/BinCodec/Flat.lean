import BinCodec.Buffer
import BinCodec.Pack

/-!
# The flat encoding

A value is sent on its own in its flat encoding, in two phases. Estimating gives the number
of bytes and fills the cache of a blob or collection; writing puts exactly that many bytes
into a buffer. Scalars have a fixed form; a blob is its serialized object, and a collection
its packed encoding.

With the serializer disabled, a value that holds an object is refused ahead of its cache.
-/

namespace BinCodec

namespace Value

/-! ## Estimating -/

/-- Refuses a value that holds an object if the serializer is disabled. -/
def gate {α : Type} (c : Config) (v : Value) (t : Traced α) : Traced α :=
  if c.disableSerializer && v.holdsObject then
    ⟨.error .serializerDisabled, [.refusedValue v.typeName]⟩
  else t

/-- The bytes of a blob or collection, computed anew. -/
def freshEncoding (c : Config) (v : Value) : Traced Bytes :=
  match v with
  | blob o _ => o.serialize c
  | v => v.packed c

/-- The bytes of a blob or collection, from its cache if that is filled. -/
def encoding (c : Config) (v : Value) : Traced Bytes :=
  v.gate c <|
    match v.cache? with
    | some (some b) => .pure b
    | _ => v.freshEncoding c

/-- Computes the bytes of a blob or collection and keeps them in its cache. -/
def encodeOnce (c : Config) (v : Value) : Run Value Bytes :=
  let t := v.encoding c
  { before := v
    after := match t.result with
      | .ok b => v.fill b
      | .error _ => v
    outcome := t }

def estimateSize (c : Config) (v : Value) : Run Value Nat :=
  match v with
  | null | infinity | wildcard => .still v (.pure 0)
  | bytes b _ | segment b | hll b => .still v (.pure b.length)
  | byte _ | int _ | long _ | double _ | float _ | boolInt _ => .still v (.pure 8)
  | bool _ => .still v (.pure 1)
  | text s => .still v (.pure s.utf8ByteSize)
  | geoJson s => .still v (.pure (1 + 2 + s.utf8ByteSize))
  | blob _ _ | array _ _ | list _ _ | map _ _ _ _ | entryList _ _ _ =>
    (v.encodeOnce c).map List.length

/-! ## Writing -/

def writeCache (cache : Cache) (buffer : Bytes) (offset : Nat) : Except WriteFault Written :=
  match cache with
  | none => .error .notEstimated
  | some b => b.writeAt buffer offset

/-- Writes the flat encoding into a buffer at an offset. Null and the range sentinels have
none and leave the buffer alone, wherever the offset is. -/
def write (v : Value) (buffer : Bytes) (offset : Nat) : Except WriteFault Written :=
  match v with
  | null | infinity | wildcard => .ok ⟨0, buffer⟩
  | bytes b _ | segment b | hll b => b.writeAt buffer offset
  | byte n => (Bytes.ofLong n.toUInt64.toInt64).writeAt buffer offset
  | text s => (Bytes.ofText s).writeAt buffer offset
  | int n => (Bytes.ofLong n.toInt64).writeAt buffer offset
  | long n => (Bytes.ofLong n).writeAt buffer offset
  | double x => x.toBytes.writeAt buffer offset
  | float x => x.widen.toBytes.writeAt buffer offset
  | bool b => Bytes.writeAt [if b then 1 else 0] buffer offset
  | boolInt b => (Bytes.ofLong (if b then 1 else 0)).writeAt buffer offset
  | geoJson s => Bytes.writeAt (0 :: Bytes.ofShort 0 ++ Bytes.ofText s) buffer offset
  | blob _ cache | array _ cache | list _ cache | map _ _ _ cache | entryList _ _ cache =>
    writeCache cache buffer offset

end Value

end BinCodec
