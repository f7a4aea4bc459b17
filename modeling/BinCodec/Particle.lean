/-!
# Particle types and map orders

A particle type is the one-byte discriminant of a bin value on the server. A map order says
how the server stores a map; it travels in the header of a packed map.
-/

namespace BinCodec

inductive ParticleType where
  | null
  | integer
  | double
  | string
  | blob
  | jblob
  | csharpBlob
  | pythonBlob
  | rubyBlob
  | phpBlob
  | erlangBlob
  | bool
  | hll
  | map
  | list
  | geoJson
deriving DecidableEq, Repr

namespace ParticleType

/-- Every particle type, by ascending code. -/
def all : List ParticleType :=
  [null, integer, double, string, blob, jblob, csharpBlob, pythonBlob, rubyBlob, phpBlob,
    erlangBlob, bool, hll, map, list, geoJson]

theorem mem_all (p : ParticleType) : p ∈ all := by cases p <;> decide

def code : ParticleType → UInt8
  | null => 0
  | integer => 1
  | double => 2
  | string => 3
  | blob => 4
  | jblob => 7
  | csharpBlob => 8
  | pythonBlob => 9
  | rubyBlob => 10
  | phpBlob => 11
  | erlangBlob => 12
  | bool => 17
  | hll => 18
  | map => 19
  | list => 20
  | geoJson => 23

def ofCode? (code : UInt8) : Option ParticleType := all.find? fun p => p.code == code

@[simp] theorem ofCode?_code (p : ParticleType) : ofCode? p.code = some p := by
  cases p <;> rfl

theorem code_injective {p q : ParticleType} (h : p.code = q.code) : p = q := by
  have := ofCode?_code p
  rw [h, ofCode?_code] at this
  exact (Option.some.inj this).symm

def name : ParticleType → String
  | null => "NULL"
  | integer => "INTEGER"
  | double => "DOUBLE"
  | string => "STRING"
  | blob => "BLOB"
  | jblob => "JBLOB"
  | csharpBlob => "CSHARP_BLOB"
  | pythonBlob => "PYTHON_BLOB"
  | rubyBlob => "RUBY_BLOB"
  | phpBlob => "PHP_BLOB"
  | erlangBlob => "ERLANG_BLOB"
  | bool => "BOOL"
  | hll => "HLL"
  | map => "MAP"
  | list => "LIST"
  | geoJson => "GEOJSON"

/-- The name under which a particle type is persisted. -/
def label : ParticleType → String
  | null => "Null"
  | integer => "Integer"
  | double => "Double"
  | string => "String"
  | blob => "Blob"
  | jblob => "JBlob"
  | csharpBlob => "CSharpBlob"
  | pythonBlob => "PythonBlob"
  | rubyBlob => "RubyBlob"
  | phpBlob => "PhpBlob"
  | erlangBlob => "ErlangBlob"
  | bool => "Bool"
  | hll => "Hll"
  | map => "Map"
  | list => "List"
  | geoJson => "GeoJson"

end ParticleType

/-- Storage order of a map on the server. -/
inductive MapOrder where
  /-- Entries in arbitrary order. -/
  | unordered
  /-- Entries sorted by key. -/
  | key
  /-- Entries sorted by key and indexed by value. -/
  | keyValue
deriving DecidableEq, Repr, Inhabited

namespace MapOrder

def all : List MapOrder := [unordered, key, keyValue]

/-- The attribute byte in the header of a packed map. -/
def attributes : MapOrder → UInt8
  | unordered => 0
  | key => 1
  | keyValue => 3

/-- The flag of operations that create a map. -/
def flag : MapOrder → UInt8
  | unordered => 0x40
  | key => 0x80
  | keyValue => 0xc0

/-- Position among the orders, by increasing strictness. -/
def rank : MapOrder → Nat
  | unordered => 0
  | key => 1
  | keyValue => 2

theorem eq_of_rank {p q : MapOrder} (h : p.rank = q.rank) : p = q := by
  cases p <;> cases q <;> first | rfl | cases h

/-- The name under which a map order is persisted. -/
def label : MapOrder → String
  | unordered => "Unordered"
  | key => "KeyOrdered"
  | keyValue => "KeyValueOrdered"

end MapOrder

/-- Kind of a map collection: whether its iteration order means anything. -/
inductive MapKind where
  /-- Iterates in insertion order, which comparisons ignore. -/
  | unordered
  /-- Iterates in ascending key order. -/
  | sorted
deriving DecidableEq, Repr

namespace MapKind

/-- The map order that a collection kind implies. -/
def order : MapKind → MapOrder
  | unordered => .unordered
  | sorted => .key

def rank : MapKind → Nat
  | unordered => 0
  | sorted => 1

end MapKind

end BinCodec
