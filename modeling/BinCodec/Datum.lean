import BinCodec.Float.Truncation
import BinCodec.Object.Serialize
import BinCodec.Particle
import BinCodec.Uuid

/-!
# Application values and wire values

A `Datum` is what an application hands over, before it is classified. A `Value` is a value in
wire form, with a particle type. The two nest in each other: a datum may wrap a value that is
already classified, and the collections among the values hold data.

Blobs and collections carry a cache for the bytes of their flat encoding. The cache is no
part of what a value means: comparisons and hashing ignore it.
-/

namespace BinCodec

/-- The bytes of a flat encoding, once they are known. -/
abbrev Cache := Option Bytes

mutual

inductive Datum where
  | null
  /-- A value that is already classified. -/
  | value (v : Value)
  | bytes (b : Bytes)
  | text (s : String)
  | int (n : Int32)
  | long (n : Int64)
  | double (x : Binary64)
  | float (x : Binary32)
  | bool (b : Bool)
  | byte (n : UInt8)
  | char (c : Char)
  /-- The name of an enumerated value. -/
  | symbol (s : String)
  | uuid (id : Uuid)
  | list (items : List Datum)
  /-- Entries in iteration order: order of insertion, or ascending keys in a sorted map. -/
  | map (kind : MapKind) (entries : List (Datum × Datum))
  /-- Bytes in a buffer of their own. -/
  | buffer (b : Bytes)
  | object (o : Object)

/-- A value in wire form. -/
inductive Value where
  | null
  | bytes (b : Bytes) (particle : ParticleType)
  /-- Bytes that are borrowed, not owned. -/
  | segment (b : Bytes)
  | byte (n : UInt8)
  | text (s : String)
  | int (n : Int32)
  | long (n : Int64)
  | double (x : Binary64)
  | float (x : Binary32)
  /-- A boolean with the boolean particle type. -/
  | bool (b : Bool)
  /-- A boolean sent as an integer. -/
  | boolInt (b : Bool)
  /-- An object stored through the serializer. -/
  | blob (o : Object) (cache : Cache)
  | geoJson (s : String)
  /-- A sketch for counting distinct elements. -/
  | hll (b : Bytes)
  /-- A list of values that are already classified. -/
  | array (values : List Value) (cache : Cache)
  | list (items : List Datum) (cache : Cache)
  | map (kind : MapKind) (entries : List (Datum × Datum)) (order : MapOrder) (cache : Cache)
  /-- A map given as a list of entries, in which keys may repeat. -/
  | entryList (entries : List (Datum × Datum)) (order : MapOrder) (cache : Cache)
  /-- The upper end of a range. -/
  | infinity
  /-- Matches anything in a range. -/
  | wildcard

end

/-- Entries of a map, in iteration order. -/
abbrev Entries := List (Datum × Datum)

namespace Datum

def isNull : Datum → Bool
  | null => true
  | _ => false

end Datum

namespace Value

def typeName : Value → String
  | null => "null"
  | bytes _ _ => "bytes"
  | segment _ => "byte segment"
  | byte _ => "byte"
  | text _ => "string"
  | int _ => "int"
  | long _ => "long"
  | double _ => "double"
  | float _ => "float"
  | bool _ => "boolean"
  | boolInt _ => "boolean int"
  | blob _ _ => "jblob"
  | geoJson _ => "geojson"
  | hll _ => "hll"
  | array _ _ => "value[]"
  | list _ _ => "list"
  | map _ _ _ _ | entryList _ _ _ => "map"
  | infinity => "INF"
  | wildcard => "wildcard"

/-- The particle type of a value. The range sentinels have none. -/
def particleType (v : Value) : Except Error ParticleType :=
  match v with
  | null => .ok .null
  | bytes _ particle => .ok particle
  | segment _ => .ok .blob
  | byte _ | int _ | long _ | boolInt _ => .ok .integer
  | text _ => .ok .string
  | double _ | float _ => .ok .double
  | bool _ => .ok .bool
  | blob _ _ => .ok .jblob
  | geoJson _ => .ok .geoJson
  | hll _ => .ok .hll
  | array _ _ | list _ _ => .ok .list
  | map _ _ _ _ | entryList _ _ _ => .ok .map
  | infinity | wildcard => .error (.invalidParticleType v.typeName)

/-- Accepts the values that the server can index as a record key. -/
def validateKey (v : Value) : Except Error Unit :=
  match v with
  | bytes _ _ | segment _ | byte _ | text _ | int _ | long _ | double _ | float _ => .ok ()
  | _ => .error (.invalidKeyType v.typeName)

/-- The numeric view of a value; zero where there is none. -/
def toLong : Value → Int64
  | byte n => n.toUInt64.toInt64
  | int n => n.toInt64
  | long n => n
  | double x => x.toInt64
  | float x => x.toInt64
  | bool b | boolInt b => if b then 1 else 0
  | _ => 0

/-- The numeric view in 32 bits: floats saturate, integers keep their low bits. -/
def toInt (v : Value) : Int32 :=
  match v with
  | double x => x.toInt32
  | float x => x.toInt32
  | v => v.toLong.toInt32

def cache? : Value → Option Cache
  | blob _ cache | array _ cache | list _ cache | map _ _ _ cache | entryList _ _ cache =>
    some cache
  | _ => none

def fill (b : Bytes) : Value → Value
  | blob o _ => blob o (some b)
  | array values _ => array values (some b)
  | list items _ => list items (some b)
  | map kind entries order _ => map kind entries order (some b)
  | entryList entries order _ => entryList entries order (some b)
  | v => v

end Value

/-! ## Objects inside a value -/

mutual

/-- Whether encoding a datum runs the serializer. -/
def Datum.holdsObject : Datum → Bool
  | .object _ => true
  | .value v => v.holdsObject
  | .list items => holdsObjectItems items
  | .map _ entries => holdsObjectEntries entries
  | _ => false

def Value.holdsObject : Value → Bool
  | .blob _ _ => true
  | .array values _ => holdsObjectValues values
  | .list items _ => holdsObjectItems items
  | .map _ entries _ _ => holdsObjectEntries entries
  | .entryList entries _ _ => holdsObjectEntries entries
  | _ => false

def holdsObjectItems : List Datum → Bool
  | [] => false
  | x :: xs => x.holdsObject || holdsObjectItems xs

def holdsObjectValues : List Value → Bool
  | [] => false
  | v :: vs => v.holdsObject || holdsObjectValues vs

def holdsObjectEntries : List (Datum × Datum) → Bool
  | [] => false
  | (k, v) :: es => k.holdsObject || v.holdsObject || holdsObjectEntries es

end

end BinCodec
