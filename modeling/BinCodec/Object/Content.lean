import BinCodec.Float.Layout
import BinCodec.SortKey.Runs

/-!
# Contents of opaque objects

An application object that the codec does not know is seen through its content: a tree of
scalars, sequences, maps, records and enumeration variants. An object also carries the name
of its type. Objects of one type are ordered by content, field by field; objects of
different types by type name.
-/

namespace BinCodec

inductive Content where
  | unit
  | bool (b : Bool)
  | integer (n : Int)
  | char (c : Char)
  | text (s : String)
  | bytes (b : Bytes)
  | float (x : Binary64)
  | absent
  | present (value : Content)
  | tuple (items : List Content)
  | sequence (items : List Content)
  /-- A map with its entries in ascending key order. -/
  | dictionary (entries : List (Content × Content))
  /-- A map given as a list of pairs, in any order. -/
  | pairs (entries : List (Content × Content))
  | record (name : String) (fields : List (String × Content))
  /-- A variant of an enumeration. A unit payload makes it a bare name, a tuple or record
  payload stands for the fields of the variant, and any other payload is its only field.
  A record payload bears the name of the variant. -/
  | variant (index : Nat) (name : String) (payload : Content)
  /-- A variant that is serialized as its payload alone. -/
  | untagged (index : Nat) (name : String) (payload : Content)
  /-- Something that the serializer rejects with the given text. -/
  | rejected (reason : String)

namespace Content

mutual

/-- The key that orders contents of one type. -/
def sortKey : Content → SortKey
  | unit => .node 0 []
  | bool b => .number b.toInt
  | integer n => .number n
  | char c => .number c.toNat
  | text s => .bytes (Bytes.ofText s)
  | bytes b => .bytes b
  | float x => .number x.bits.toNat
  | absent => .node 0 []
  | present value => .node 1 [value.sortKey]
  | tuple items => .node 0 (itemKeys items)
  | sequence items => .node 0 (itemKeys items)
  | dictionary entries => .node 0 (entryKeys entries)
  | pairs entries => .node 0 (entryKeys entries)
  | record _ fields => .node 0 (fieldKeys fields)
  | variant index _ payload => .node index [payload.sortKey]
  | untagged index _ payload => .node index [payload.sortKey]
  | rejected reason => .bytes (Bytes.ofText reason)

def itemKeys : List Content → List SortKey
  | [] => []
  | x :: xs => x.sortKey :: itemKeys xs

def entryKeys : List (Content × Content) → List SortKey
  | [] => []
  | (k, v) :: es => .node 0 [k.sortKey, v.sortKey] :: entryKeys es

def fieldKeys : List (String × Content) → List SortKey
  | [] => []
  | (_, x) :: fs => x.sortKey :: fieldKeys fs

end

/-- A map collected from entries: sorted by key, where of several entries with one key the
last one counts. -/
def dictionaryOf (entries : List (Content × Content)) : Content :=
  .dictionary ((SortKey.runs (fun e => e.1.sortKey) entries).filterMap List.getLast?)

end Content

/-- An opaque object: its type's name and its content. -/
structure Object where
  typeName : String
  content : Content

namespace Object

/-- The key that orders objects: by type name, then by content. -/
def sortKey (o : Object) : SortKey := .node 0 [.bytes (Bytes.ofText o.typeName), o.content.sortKey]

def compare (a b : Object) : Ordering := a.sortKey.compare b.sortKey

def same (a b : Object) : Bool := a.sortKey.same b.sortKey

def downcast? (o : Object) (typeName : String) : Option Content :=
  if o.typeName = typeName then some o.content else none

end Object

end BinCodec
