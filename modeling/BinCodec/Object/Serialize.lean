import BinCodec.Cbor.Head
import BinCodec.Config
import BinCodec.Object.Debug

/-!
# Serialized form of objects

Objects are serialized to CBOR with definite lengths and the shortest heads. Integers beyond
64 bits are written as tagged byte strings, records as maps from field names, variants as
their name or as a map from their name to their fields. Serialization fails at the first
rejected part, parts being visited in order and keys before values.
-/

namespace BinCodec

open Cbor (Head)

/-- The parts one after the other, or the first failure. -/
def joinParts {ε : Type} (parts : List (Except ε Bytes)) : Except ε Bytes :=
  parts.foldr (fun part rest => part.bind fun front => rest.map (front ++ ·)) (.ok [])

def encodeInteger (n : Int) : Bytes :=
  let tagged (tag m : Nat) : Bytes :=
    let digits := Bytes.minimal m
    (Head.tag tag).encode ++ (Head.bytes (some digits.length)).encode ++ digits
  match n with
  | .ofNat m => if m < 0x10000000000000000 then (Head.positive m).encode else tagged Head.bigPositive m
  | .negSucc m => if m < 0x10000000000000000 then (Head.negative m).encode else tagged Head.bigNegative m

def encodeText (s : String) : Bytes :=
  let b := Bytes.ofText s
  (Head.text (some b.length)).encode ++ b

namespace Content

mutual

/-- The serialized form of a content, or the text of the first rejected part. -/
def encode : Content → Except String Bytes
  | unit => .ok (Head.simple Head.nullValue).encode
  | bool b => .ok (Head.simple (if b then Head.trueValue else Head.falseValue)).encode
  | integer n => .ok (encodeInteger n)
  | char c => .ok (encodeText (String.singleton c))
  | text s => .ok (encodeText s)
  | bytes b => .ok ((Head.bytes (some b.length)).encode ++ b)
  | float x => .ok (Head.float x).encode
  | absent => .ok (Head.simple Head.nullValue).encode
  | present value => value.encode
  | tuple items => joinParts (.ok (Head.array (some items.length)).encode :: encodeItems items)
  | sequence items => joinParts (.ok (Head.array (some items.length)).encode :: encodeItems items)
  | dictionary entries =>
    joinParts (.ok (Head.map (some entries.length)).encode :: encodeEntries entries)
  | pairs entries =>
    joinParts (.ok (Head.map (some entries.length)).encode :: encodeEntries entries)
  | record _ fields =>
    joinParts (.ok (Head.map (some fields.length)).encode :: encodeFields fields)
  | variant _ name unit => .ok (encodeText name)
  | variant _ name payload =>
    joinParts [.ok (Head.map (some 1)).encode, .ok (encodeText name), payload.encode]
  | untagged _ _ payload => payload.encode
  | rejected reason => .error reason

def encodeItems : List Content → List (Except String Bytes)
  | [] => []
  | x :: xs => x.encode :: encodeItems xs

/-- The serialized forms of map entries, key before value. -/
def encodeEntries : List (Content × Content) → List (Except String Bytes)
  | [] => []
  | (k, v) :: es => joinParts [k.encode, v.encode] :: encodeEntries es

def encodeFields : List (String × Content) → List (Except String Bytes)
  | [] => []
  | (name, x) :: fs => joinParts [.ok (encodeText name), x.encode] :: encodeFields fs

end

end Content

namespace Object

/-- What the serializer makes of an object. -/
def encode (o : Object) : Except Error Bytes :=
  o.content.encode.mapError fun reason => .serialize (quoteText reason)

/-- Serializes an object, unless the configuration forbids it. -/
def serialize (c : Config) (o : Object) : Traced Bytes :=
  if c.disableSerializer then ⟨.error .serializerDisabled, [.refusedObject o.typeName]⟩
  else ⟨o.encode, [.serializing o.typeName]⟩

end Object

end BinCodec
