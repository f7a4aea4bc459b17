import BinCodec.Datum.Collect
import BinCodec.SipHash

/-!
# What is hashed

Hashing feeds a sequence of tokens to a hash function: the rank of the kind, then the
content, each sequence under its length. An unordered map feeds its size and the sum of the
hashes of its entries, which does not depend on their order. Caches are not fed.
-/

namespace BinCodec

/-- What is fed to a hash function. -/
inductive Token where
  | number (n : Int)
  | word (w : UInt64)
  | bytes (b : Bytes)
deriving DecidableEq

mutual

def SortKey.tokens : SortKey → List Token
  | .number n => [.number n]
  | .bytes b => [.bytes b]
  | .node rank parts => .number rank :: .number parts.length :: (keyTokens parts).flatten

def keyTokens : List SortKey → List (List Token)
  | [] => []
  | k :: ks => k.tokens :: keyTokens ks

end

/-- The tokens of a sequence, given those of its members. -/
def sequenceFeed (members : List (List Token)) : List Token :=
  .number members.length :: members.flatten

/-- The tokens of a map of the given kind, given those of its entries. The hash of an entry
is `hash` of its tokens. -/
def MapKind.feed (hash : List Token → UInt64) (kind : MapKind) (entries : List (List Token)) :
    List Token :=
  match kind with
  | .unordered => [.number entries.length, .word (entries.foldl (fun sum e => sum + hash e) 0)]
  | .sorted => sequenceFeed entries

mutual

def Datum.feed (hash : List Token → UInt64) : Datum → List Token
  | .null => [.number 0]
  | .value v => .number 1 :: v.feed hash
  | .bytes b => [.number 2, .bytes b]
  | .text s => [.number 3, .bytes (Bytes.ofText s)]
  | .int n => [.number 4, .number n.toInt]
  | .long n => [.number 5, .number n.toInt]
  | .double x => [.number 6, .number x.bits.toNat]
  | .float x => [.number 7, .number x.bits.toNat]
  | .bool b => [.number 8, .number b.toInt]
  | .byte n => [.number 9, .number n.toNat]
  | .char c => [.number 10, .number c.toNat]
  | .symbol s => [.number 11, .bytes (Bytes.ofText s)]
  | .uuid id => [.number 12, .bytes id.toBytes]
  | .list items => .number 13 :: sequenceFeed (feedItems hash items)
  | .map .unordered entries => .number 14 :: MapKind.unordered.feed hash (feedEntries hash entries)
  | .map .sorted entries => .number 15 :: MapKind.sorted.feed hash (feedEntries hash entries)
  | .buffer b => [.number 16, .bytes b]
  | .object o => .number 17 :: .bytes (Bytes.ofText o.typeName) :: o.content.sortKey.tokens

def Value.feed (hash : List Token → UInt64) : Value → List Token
  | .null => [.number 0]
  | .bytes b particle => [.number 1, .number particle.code.toNat, .bytes b]
  | .segment b => [.number 2, .bytes b]
  | .byte n => [.number 3, .number n.toNat]
  | .text s => [.number 4, .bytes (Bytes.ofText s)]
  | .int n => [.number 5, .number n.toInt]
  | .long n => [.number 6, .number n.toInt]
  | .double x => [.number 7, .number x.bits.toNat]
  | .float x => [.number 8, .number x.bits.toNat]
  | .bool b => [.number 9, .number b.toInt]
  | .boolInt b => [.number 10, .number b.toInt]
  | .blob o _ => .number 11 :: .bytes (Bytes.ofText o.typeName) :: o.content.sortKey.tokens
  | .geoJson s => [.number 12, .bytes (Bytes.ofText s)]
  | .hll b => [.number 13, .bytes b]
  | .array values _ => .number 14 :: sequenceFeed (feedValues hash values)
  | .list items _ => .number 15 :: sequenceFeed (feedItems hash items)
  | .map kind entries order _ =>
    .number 16 :: .number order.rank :: .number kind.rank ::
      kind.feed hash (feedEntries hash entries)
  | .entryList entries order _ =>
    .number 17 :: .number order.rank :: sequenceFeed (feedEntries hash entries)
  | .infinity => [.number 18]
  | .wildcard => [.number 19]

def feedItems (hash : List Token → UInt64) : List Datum → List (List Token)
  | [] => []
  | x :: xs => x.feed hash :: feedItems hash xs

def feedValues (hash : List Token → UInt64) : List Value → List (List Token)
  | [] => []
  | v :: vs => v.feed hash :: feedValues hash vs

/-- The tokens of map entries, each key before its value. -/
def feedEntries (hash : List Token → UInt64) : List (Datum × Datum) → List (List Token)
  | [] => []
  | (k, v) :: es => (k.feed hash ++ v.feed hash) :: feedEntries hash es

end

def MapEntries.feed (hash : List Token → UInt64) (m : MapEntries) : List Token :=
  .number m.kind.rank :: m.kind.feed hash (feedEntries hash m.entries)

/-- A token's bytes behind a mark of its kind and their number. -/
def Token.framed (mark : UInt8) (b : Bytes) : Bytes := mark :: Bytes.bigEndian 8 b.length ++ b

/-- The bytes of a token, of whatever size. Different tokens differ in their frame or in what
is framed. -/
def Token.toBytes : Token → Bytes
  | number (.ofNat n) => framed 0 (Bytes.minimal n)
  | number (.negSucc n) => framed 1 (Bytes.minimal n)
  | word w => framed 2 (Bytes.bigEndian 8 w.toNat)
  | bytes b => framed 3 b

def hashTokens (tokens : List Token) : UInt64 := SipHash.hash (tokens.flatMap Token.toBytes)

def Datum.hash (d : Datum) : UInt64 := hashTokens (d.feed hashTokens)

def Value.hash (v : Value) : UInt64 := hashTokens (v.feed hashTokens)

def MapEntries.hash (m : MapEntries) : UInt64 := hashTokens (m.feed hashTokens)

end BinCodec
